import FastGraph.Index.Proofs.Shape
import FastGraph.Misc.IntPositions
import FastGraph.Misc.Standings

/-!
# A skip list is a strictly ascending list

The calls of a skip list on its list of towers. The first part needs no laws of the
comparisons: no call follows a bad pointer, and each does one thing at one place of the
list. In a linear order that place is where the element belongs, so the list stays strictly
ascending and in step with the table of scores.
-/

namespace FastGraph.SkipList
open Tower

section
variable {S : Type} [Inhabited S] {l : SkipList S} {ts : List (Tower (Item S))}

/-- What the towers hold, in order. -/
def items (ts : List (Tower (Item S))) : List (Item S) := ts.map Tower.item

theorem shape_empty : Shape (empty : SkipList S) [] := by
  refine ⟨?_, by simp, by simp, by simp, ⟨le_rfl, by simp [empty, skipMaxLevel]⟩, ?_, rfl, rfl⟩
  · intro front t back cut
    cases front with
    | nil =>
      obtain ⟨rfl, rfl⟩ := List.cons.inj cut
      refine ⟨List.replicate skipMaxLevel none, rfl, rfl, ?_⟩
      intro i shown
      simp only [headTower, full, decide_eq_true_eq] at shown
      rw [List.getElem?_replicate, if_pos shown]
      rfl
    | cons f front => simp at cut
  · intro a above
    have other : a ≠ 0 := by
      dsimp only [empty] at above
      omega
    simp [view, empty, UnorderedMap.find_set, other]

/-! ### One place of the list -/

section
variable [BEq S] [LT S] [DecidableLT S]

/-- `less` on items. -/
def lessItem (score : S) (member : Bytes) (x : Item S) : Bool :=
  x.1 < score || (x.1 == score && x.2 < member)

/-- `isAt` on items. -/
def isAtItem (score : S) (member : Bytes) (x : Item S) : Bool := x.2 == member && x.1 == score

/-- The list is cut where the search for `score` and `member` stops. -/
structure Cut (score : S) (member : Bytes) (pre post : List (Tower (Item S))) : Prop where
  behind : ∀ x rest, post = x :: rest → lessItem score member x.item = false
  front : ∀ rest x, pre = rest ++ [x] → lessItem score member x.item = true
  leapt : Leapt (lessItem score member) pre
  held : Held (lessItem score member) post

/-- The search of `insert` and `remove`, and the node behind the place it finds. -/
theorem Shape.searchLess (shape : Shape l ts) (score : S) (member : Bytes)
    (update : Nat → Option Nat) :
    ∃ pre post cur update', ts = pre ++ post ∧ Cut score member pre post ∧
      l.search (less score member) update = some (cur, update') ∧
      (∀ j, j < l.level → update' j = some (lastAt j (headTower l) pre).addr) ∧
      ∃ u, update' 0 = some u ∧ forward l.heap u 0 = some (post.head?.map addr) := by
  have same : ∀ node : SkipNode S,
      less score member node = lessItem score member (node.score, node.member) := fun _ => rfl
  obtain ⟨pre, post, update', cut, run, written, behind, front, leapt, held, next⟩ :=
    shape.search same update
  have zero := written 0 shape.level.1
  exact ⟨pre, post, _, update', cut, ⟨behind, front, leapt, held⟩, run, written, _, zero, next⟩

/-- What `remove` does: it takes out the tower at the place it searches for if that holds the
element, and changes nothing otherwise. -/
inductive Removed (l : SkipList S) (ts : List (Tower (Item S))) (score : S) (member : Bytes)
    (l' : SkipList S) (ts' : List (Tower (Item S))) : Bool → Prop
  | absent {pre post} (split : ts = pre ++ post) (cut : Cut score member pre post)
      (missing : ∀ x rest, post = x :: rest → isAtItem score member x.item = false)
      (same : l' = l) (same' : ts' = ts) : Removed l ts score member l' ts' false
  | present {pre t post} (split : ts = pre ++ t :: post) (cut : Cut score member pre (t :: post))
      (here : isAtItem score member t.item = true) (result : ts' = pre ++ post)
      (scores : l'.memberScores = l.memberScores.erase member) : Removed l ts score member l' ts' true

/-- `remove` returns, and leaves a well-shaped list. -/
theorem Shape.remove (shape : Shape l ts) (score : S) (member : Bytes) :
    ∃ l' ts' done, l.remove score member = some (l', done) ∧ Shape l' ts' ∧
      Removed l ts score member l' ts' done := by
  obtain ⟨pre, post, cur, update, rfl, cut, run, written, u, zero, next⟩ :=
    shape.searchLess score member fun _ => none
  unfold SkipList.remove
  simp only [run, zero, next, Option.bind_eq_bind, Option.bind_some]
  cases post with
  | nil => exact ⟨l, pre ++ [], false, rfl, shape, .absent rfl cut (by simp) rfl rfl⟩
  | cons t post =>
    obtain ⟨f, stored, -⟩ := shape.stored
    obtain ⟨node, found, score', member', -⟩ := find_of_view stored
    have test : isAt score member node = isAtItem score member t.item := by
      unfold isAt isAtItem
      rw [score', member']
    simp only [List.head?_cons, Option.map_some, found, Option.bind_some, test]
    cases here : isAtItem score member t.item with
    | false =>
      refine ⟨l, pre ++ t :: post, false, rfl, shape, .absent rfl cut ?_ rfl rfl⟩
      intro x rest first
      rw [← (List.cons.inj first).1, here]
    | true =>
      obtain ⟨heap, level, unlinked, shrunk, shape'⟩ := shape.unlink written
        (l.memberScores.erase member)
      refine ⟨_, pre ++ post, true, ?_, shape', .present rfl cut here rfl rfl⟩
      simp [unlinked, shrunk]

/-- What `insert` does: nothing if the element is at its place; else it puts the element into
the list, after taking out the member's old element if the table has another score for it. -/
inductive Inserted (l : SkipList S) (ts : List (Tower (Item S))) (coins : List Bool) (score : S)
    (member : Bytes) (l' : SkipList S) (ts' : List (Tower (Item S))) : Prop
  | present {pre t post} (split : ts = pre ++ t :: post) (cut : Cut score member pre (t :: post))
      (here : isAtItem score member t.item = true) (same : l' = l) (same' : ts' = ts)
  | fresh {pre post t} (split : ts = pre ++ post) (cut : Cut score member pre post)
      (absent : ∀ x rest, post = x :: rest → isAtItem score member x.item = false)
      (unscored : ∀ old, l.scoreOf member = some old → (old != score) = false)
      (item : t.item = (score, member)) (result : ts' = pre ++ t :: post)
      (scores : l'.memberScores = l.memberScores.set member score)
  | moved {old l₁ done pre₀ post₀ pre post t} (split : ts = pre₀ ++ post₀)
      (cut₀ : Cut score member pre₀ post₀)
      (absent : ∀ x rest, post₀ = x :: rest → isAtItem score member x.item = false)
      (scored : l.scoreOf member = some old) (differs : (old != score) = true)
      (removed : Removed l ts old member l₁ (pre ++ post) done)
      (shape : Shape l₁ (pre ++ post)) (cut : Cut score member pre post)
      (item : t.item = (score, member)) (result : ts' = pre ++ t :: post)
      (scores : l'.memberScores = l₁.memberScores.set member score)

/-- `insert` returns, and leaves a well-shaped list. -/
theorem Shape.insert (shape : Shape l ts) (coins : List Bool) (score : S) (member : Bytes) :
    ∃ l' ts', l.insert coins score member = some l' ∧ Shape l' ts' ∧
      Inserted l ts coins score member l' ts' := by
  obtain ⟨pre, post, cur, update, rfl, cut, run, written, u, zero, next⟩ :=
    shape.searchLess score member fun _ => none
  have present : ∃ found, presentAt l.heap score member (post.head?.map addr) = some found ∧
      ((found = true ∧ ∃ t rest, post = t :: rest ∧ isAtItem score member t.item = true) ∨
        (found = false ∧ ∀ x rest, post = x :: rest → isAtItem score member x.item = false)) := by
    cases post with
    | nil => exact ⟨false, rfl, Or.inr ⟨rfl, by simp⟩⟩
    | cons t post =>
      obtain ⟨f, stored, -⟩ := shape.stored
      obtain ⟨node, found, score', member', -⟩ := find_of_view stored
      refine ⟨isAtItem score member t.item, ?_, ?_⟩
      · simp [presentAt, found, isAt, isAtItem, score', member']
      · cases here : isAtItem score member t.item with
        | true => exact Or.inl ⟨rfl, t, post, rfl, here⟩
        | false =>
          refine Or.inr ⟨rfl, ?_⟩
          intro x rest first
          rw [← (List.cons.inj first).1, here]
  obtain ⟨found, test, which⟩ := present
  unfold SkipList.insert
  simp only [run, zero, next, test, Option.bind_eq_bind, Option.bind_some]
  rcases which with ⟨rfl, t, rest, rfl, here⟩ | ⟨rfl, absent⟩
  · exact ⟨l, pre ++ t :: rest, rfl, shape, .present rfl cut here rfl rfl⟩
  · rw [if_neg (by simp)]
    cases scored : l.scoreOf member with
    | none =>
      obtain ⟨l', added, shape', scores⟩ := shape.insertNew written coins score member
      exact ⟨l', _, added, shape', .fresh rfl cut absent (by simp [scored]) rfl rfl scores⟩
    | some old =>
      dsimp only
      cases differs : old != score with
      | false =>
        obtain ⟨l', added, shape', scores⟩ := shape.insertNew written coins score member
        refine ⟨l', _, added, shape', .fresh rfl cut absent ?_ rfl rfl scores⟩
        intro old' scored'
        rw [scored] at scored'
        rw [← Option.some.inj scored', differs]
      | true =>
        rw [if_pos rfl]
        obtain ⟨l₁, ts₁, done, step, shape₁, removed⟩ := shape.remove old member
        obtain ⟨pre₁, post₁, cur₁, update₁, rfl, cut₁, run₁, written₁, -⟩ :=
          shape₁.searchLess score member update
        obtain ⟨l', added, shape', scores⟩ := shape₁.insertNew written₁ coins score member
        refine ⟨l', _, ?_, shape', .moved rfl cut absent scored differs removed shape₁ cut₁ rfl rfl
          scores⟩
        simp [step, run₁, added]

end

/-! ### Ranges -/

theorem Shape.head_next (shape : Shape l ts) :
    forward l.heap l.head 0 = some (ts.head?.map addr) := by
  have record := shape.laid [] (headTower l) ts rfl
  have next := forward_of_record record (shows_headTower (l := l) (i := 0) (by decide))
  rw [show (headTower l).addr = l.head from rfl] at next
  rw [next]
  cases ts with
  | nil => rfl
  | cons t ts =>
    have ground : t.shows 0 = true := by
      rw [shape.whole t (by simp)]
      have := shape.heights t (by simp)
      simp only [full, decide_eq_true_eq]
      omega
    rw [nextAt_cons, ground, if_pos rfl]
    rfl

/-- A node of the list and the pointer to the next one. -/
theorem Shape.node {pre post : List (Tower (Item S))} {t : Tower (Item S)}
    (shape : Shape l (pre ++ t :: post)) :
    ∃ node, l.heap.find t.addr = some node ∧ (node.score, node.member) = t.item ∧
      node.forward[0]? = some (post.head?.map addr) := by
  obtain ⟨f, stored, -, links⟩ := shape.stored
  obtain ⟨node, found, score, member, rfl⟩ := find_of_view stored
  have ground : ∀ x ∈ pre ++ t :: post, x.shows 0 = true := by
    intro x mem
    rw [shape.whole x mem]
    have := shape.heights x mem
    simp only [full, decide_eq_true_eq]
    omega
  refine ⟨node, found, by rw [score, member], ?_⟩
  rw [links 0 (ground t (by simp))]
  cases post with
  | nil => rfl
  | cons x post => rw [nextAt_cons, ground x (by simp), if_pos rfl]; rfl

/-- The loop of `range_by_rank` selects by position. -/
theorem Shape.collectRanks {pre post : List (Tower (Item S))} (shape : Shape l (pre ++ post))
    (start stop idx : Int) {fuel : Nat} (enough : post.length ≤ fuel) :
    collectRanks l.heap start stop fuel idx (post.head?.map addr) =
      some (Ranking.intPositions start stop idx (items post)) := by
  induction post generalizing pre fuel idx with
  | nil => cases fuel <;> rfl
  | cons t post ih =>
    obtain ⟨node, found, item, next⟩ := shape.node
    cases fuel with
    | zero => simp at enough
    | succ fuel =>
      have shape' : Shape l ((pre ++ [t]) ++ post) := by simpa using shape
      have rest := ih shape' (toInt32 (idx + 1)) (by simpa using enough)
      simp only [List.head?_cons, Option.map_some, SkipList.collectRanks, items, List.map_cons,
        Ranking.intPositions]
      split
      · simp only [found, next, Option.bind_eq_bind, Option.bind_some, rest, item]
        split <;> rfl
      · rfl

theorem Shape.rangeByRank (shape : Shape l ts) (start stop : Int) :
    l.rangeByRank start stop = some (Ranking.intPositions start stop 0 (items ts)) := by
  have whole : Shape l ([] ++ ts) := shape
  have enough : ts.length ≤ l.heap.size := by
    rw [shape.heapSize]
    omega
  have all := whole.collectRanks start stop 0 enough
  simp [SkipList.rangeByRank, shape.head_next, all]

/-- Level 0 has every node. -/
theorem Shape.collect {pre post : List (Tower (Item S))} (shape : Shape l (pre ++ post))
    {fuel : Nat} (enough : post.length ≤ fuel) :
    collect l.heap fuel (post.head?.map addr) = some (items post) := by
  induction post generalizing pre fuel with
  | nil => cases fuel <;> rfl
  | cons t post ih =>
    obtain ⟨node, found, item, next⟩ := shape.node
    cases fuel with
    | zero => simp at enough
    | succ fuel =>
      have shape' : Shape l ((pre ++ [t]) ++ post) := by simpa using shape
      have rest := ih shape' (by simpa using enough)
      simp only [List.head?_cons, Option.map_some, SkipList.collect, found, next,
        Option.bind_eq_bind, Option.bind_some, rest, item, items, List.map_cons]

theorem Shape.elements (shape : Shape l ts) : l.elements = some (items ts) := by
  have whole : Shape l ([] ++ ts) := shape
  have enough : ts.length ≤ l.heap.size := by
    rw [shape.heapSize]
    omega
  have all := whole.collect enough
  simp [SkipList.elements, shape.head_next, all]

section
variable [LT S] [DecidableLT S] [LE S] [DecidableLE S]

omit [LT S] [DecidableLT S] in
/-- The collecting loop of `range_by_score` takes a beginning of what is left. -/
theorem Shape.collectUpTo {pre post : List (Tower (Item S))} (shape : Shape l (pre ++ post))
    (maxScore : S) {fuel : Nat} (enough : post.length ≤ fuel) :
    collectUpTo l.heap maxScore fuel (post.head?.map addr) =
      some ((items post).takeWhile fun x => x.1 ≤ maxScore) := by
  induction post generalizing pre fuel with
  | nil => cases fuel <;> rfl
  | cons t post ih =>
    obtain ⟨node, found, item, next⟩ := shape.node
    cases fuel with
    | zero => simp at enough
    | succ fuel =>
      have shape' : Shape l ((pre ++ [t]) ++ post) := by simpa using shape
      have rest := ih shape' (by simpa using enough)
      have score : node.score = t.item.1 := by rw [← item]
      simp only [List.head?_cons, Option.map_some, SkipList.collectUpTo, found,
        Option.bind_eq_bind, Option.bind_some, items, List.map_cons, List.takeWhile_cons, next]
      rw [← score]
      split
      · rename_i small
        rw [if_pos (by simpa using small), rest, item]
        rfl
      · rename_i big
        rw [if_neg (by simpa using big)]

/-- `range_by_score` skips the nodes below `min_score` and takes what follows up to
`max_score`. -/
theorem Shape.rangeByScore (shape : Shape l ts) (minScore maxScore : S) :
    ∃ pre post, ts = pre ++ post ∧
      (∀ x rest, post = x :: rest → ¬ x.item.1 < minScore) ∧
      (∀ rest x, pre = rest ++ [x] → x.item.1 < minScore) ∧
      Leapt (fun x => decide (x.1 < minScore)) pre ∧ Held (fun x => decide (x.1 < minScore)) post ∧
      l.rangeByScore minScore maxScore =
        some ((items post).takeWhile fun x => x.1 ≤ maxScore) := by
  have same : ∀ node : SkipNode S,
      decide (node.score < minScore) = decide ((node.score, node.member).1 < minScore) :=
    fun _ => rfl
  obtain ⟨pre, post, update, rfl, run, -, behind, front, leapt, held, next⟩ :=
    shape.search (b := fun x => decide (x.1 < minScore)) same fun _ => none
  refine ⟨pre, post, rfl, ?_, ?_, leapt, held, ?_⟩
  · intro x rest first
    simpa using behind x rest first
  · intro rest x last
    simpa using front rest x last
  · have enough : post.length ≤ l.heap.size := by
      rw [shape.heapSize, List.length_append]
      omega
    have taken := shape.collectUpTo maxScore enough
    simp [SkipList.rangeByScore, run, next, taken]

end

end

/-! ### Scores in an order -/

section
variable {S E : Type} [Inhabited S] [BEq S] [LT S] [DecidableLT S] [LinearOrder E] {num : E → S}
  {l l' : SkipList S} {ts ts' pre post : List (Tower (Item S))} {scores : Bytes → Option E}
  {ks : List (E ×ₗ Bytes)} {s : E} {m : Bytes}
open Ranking

/-- Among the scores that `num` gives the comparisons are those of an order. -/
structure Faithful (num : E → S) : Prop where
  lt : ∀ x y, num x < num y ↔ x < y
  beq : ∀ x y, (num x == num y) = true ↔ x = y

/-- The item at a place of the order. -/
def itemAt (num : E → S) (k : E ×ₗ Bytes) : Item S := (num (ofLex k).1, (ofLex k).2)

omit [Inhabited S] in
theorem Faithful.lessItem_itemAt (faithful : Faithful num) (k : E ×ₗ Bytes) :
    lessItem (num s) m (itemAt num k) = true ↔ k < toLex (s, m) := by
  rw [← toLex_ofLex k, Prod.Lex.toLex_lt_toLex, lessItem, Bool.or_eq_true, Bool.and_eq_true,
    decide_eq_true_iff, decide_eq_true_iff]
  simp only [itemAt, faithful.lt, faithful.beq]
  rfl

omit [Inhabited S] [LT S] [DecidableLT S] [LinearOrder E] in
theorem isAtItem_itemAt (same : ∀ x y, (num x == num y) = true ↔ x = y) (k : E ×ₗ Bytes) :
    isAtItem (num s) m (itemAt num k) = true ↔ k = toLex (s, m) := by
  simp only [isAtItem, itemAt, same, Bool.and_eq_true, beq_iff_eq]
  constructor
  · intro ⟨own, score⟩
    exact ofLex.injective (Prod.ext score own)
  · rintro rfl
    exact ⟨rfl, rfl⟩

/-- The list is strictly ascending and in step with its table of scores, which `num` gives. -/
structure Graded (num : E → S) (l : SkipList S) (ts : List (Tower (Item S)))
    (scores : Bytes → Option E) (ks : List (E ×ₗ Bytes)) : Prop where
  shape : Shape l ts
  items : items ts = ks.map (itemAt num)
  inStep : InStep scores ks
  table : ∀ m, l.scoreOf m = (scores m).map num

omit [BEq S] [LT S] [DecidableLT S] in
theorem graded_empty : Graded num (empty : SkipList S) [] (fun _ => none) [] :=
  ⟨shape_empty, rfl, inStep_nil, fun _ => rfl⟩

omit [Inhabited S] [BEq S] [LT S] [DecidableLT S] [LinearOrder E] in
theorem items_append_eq_map (same : SkipList.items (pre ++ post) = ks.map (itemAt num)) :
    ∃ xs ys, ks = xs ++ ys ∧ SkipList.items pre = xs.map (itemAt num) ∧
      SkipList.items post = ys.map (itemAt num) := by
  rw [SkipList.items, List.map_append] at same
  obtain ⟨xs, ys, rfl, front, behind⟩ := List.append_eq_map_iff.mp same
  exact ⟨xs, ys, rfl, front.symm, behind.symm⟩

omit [Inhabited S] [BEq S] [LT S] [DecidableLT S] in
/-- A search for the end of what smaller elements share comes to that end. -/
theorem sides {b : Item S → Bool} {P : E ×ₗ Bytes → Prop} {xs ys : List (E ×ₗ Bytes)}
    (same : ∀ k, b (itemAt num k) = true ↔ P k) (down : ∀ x y, x ≤ y → P y → P x)
    (asc : Ascending (xs ++ ys)) (front : SkipList.items pre = xs.map (itemAt num))
    (behind : SkipList.items post = ys.map (itemAt num))
    (last : ∀ rest x, pre = rest ++ [x] → b x.item = true)
    (first : ∀ x rest, post = x :: rest → b x.item = false) :
    (∀ x ∈ xs, P x) ∧ ∀ y ∈ ys, ¬ P y := by
  constructor
  · intro x mem
    refine asc.of_last down ?_ mem
    rintro rest y rfl
    rw [SkipList.items, List.map_append, List.map_eq_append_iff] at front
    obtain ⟨us, vs, rfl, -, ends⟩ := front
    obtain ⟨u, rfl, item⟩ := List.map_eq_singleton_iff.mp ends
    rw [← same, ← item]
    exact last us u rfl
  · intro y mem
    refine asc.not_of_first down ?_ mem
    rintro y rest rfl
    obtain ⟨u, us, rfl, item, -⟩ := List.map_eq_cons_iff.mp behind
    rw [← same, ← item, first u us rfl]
    simp

omit [Inhabited S] in
theorem Cut.sides (cut : Cut (num s) m pre post) (faithful : Faithful num) {xs ys : List (E ×ₗ Bytes)}
    (asc : Ascending (xs ++ ys)) (front : SkipList.items pre = xs.map (itemAt num))
    (behind : SkipList.items post = ys.map (itemAt num)) :
    (∀ x ∈ xs, x < toLex (s, m)) ∧ ∀ y ∈ ys, ¬ y < toLex (s, m) :=
  SkipList.sides faithful.lessItem_itemAt (fun _ _ => lt_of_le_of_lt) asc front behind cut.front
    cut.behind

omit [Inhabited S] in
/-- An element of the list is the first one behind the place to which its search comes. -/
theorem Cut.isAt_first (cut : Cut (num s) m pre post) (faithful : Faithful num)
    (inStep : InStep scores ks) (same : SkipList.items (pre ++ post) = ks.map (itemAt num))
    (scored : scores m = some s) :
    ∃ t rest, post = t :: rest ∧ isAtItem (num s) m t.item = true := by
  obtain ⟨xs, ys, rfl, front, behind⟩ := items_append_eq_map same
  obtain ⟨small, big⟩ := cut.sides faithful inStep.ascending front behind
  obtain ⟨rest, rfl⟩ := inStep.first scored small big
  obtain ⟨t, us, rfl, item, -⟩ := List.map_eq_cons_iff.mp behind
  refine ⟨t, us, rfl, ?_⟩
  rw [item, isAtItem_itemAt faithful.beq]

omit [Inhabited S] [LinearOrder E] in
theorem Removed.table {score : S} (removed : Removed l ts score m l' ts' true) :
    l'.memberScores = l.memberScores.erase m := by
  cases removed
  assumption

/-- `remove` takes the element of a member out of the list and of the table. -/
theorem Removed.graded {done : Bool} (removed : Removed l ts (num s) m l' ts' done)
    (faithful : Faithful num) (graded : Graded num l ts scores ks) (scored : scores m = some s)
    (shape : Shape l' ts') :
    done = true ∧ ∃ ks', Graded num l' ts' (fun m' => if m' = m then none else scores m') ks' := by
  have inStep := graded.inStep
  have items := graded.items
  cases removed with
  | absent split cut missing =>
    rw [split] at items
    obtain ⟨t, rest, first, here⟩ := cut.isAt_first faithful inStep items scored
    rw [missing t rest first] at here
    cases here
  | @present pre t post split cut here result table =>
    subst split result
    obtain ⟨xs, ys, rfl, front, behind⟩ := items_append_eq_map items
    obtain ⟨k, ys, rfl, item, rest⟩ := List.map_eq_cons_iff.mp behind.symm
    rw [← item, isAtItem_itemAt faithful.beq] at here
    subst here
    refine ⟨rfl, xs ++ ys, shape, ?_, inStep.erase, ?_⟩
    · rw [List.map_append, rest, ← front, SkipList.items, List.map_append]
      rfl
    · intro m'
      rw [scoreOf, table, UnorderedMap.find_erase]
      split
      · rfl
      · exact graded.table m'

/-- An element that is put where its search comes to, of a member without one. -/
theorem Graded.added {t : Tower (Item S)} (graded : Graded num l (pre ++ post) scores ks)
    (faithful : Faithful num) (cut : Cut (num s) m pre post) (unscored : scores m = none)
    (item : t.item = (num s, m)) (table : l'.memberScores = l.memberScores.set m (num s))
    (shape : Shape l' (pre ++ t :: post)) :
    ∃ ks', Graded num l' (pre ++ t :: post) (fun m' => if m' = m then some s else scores m') ks' := by
  obtain ⟨xs, ys, rfl, front, behind⟩ := items_append_eq_map graded.items
  obtain ⟨small, big⟩ := cut.sides faithful graded.inStep.ascending front behind
  refine ⟨xs ++ toLex (s, m) :: ys, shape, ?_, graded.inStep.insert unscored small big, ?_⟩
  · rw [List.map_append, List.map_cons, ← front, ← behind, SkipList.items, List.map_append,
      List.map_cons, item]
    rfl
  · intro m'
    rw [scoreOf, table, UnorderedMap.find_set]
    split
    · rfl
    · exact graded.table m'

/-- `remove` of any element takes it out if the member has the score. -/
theorem Graded.remove (graded : Graded num l ts scores ks) (faithful : Faithful num) (s : E)
    (m : Bytes) :
    ∃ l' ts' done ks', l.remove (num s) m = some (l', done) ∧ Graded num l' ts'
      (fun m' => if m' = m ∧ scores m = some s then none else scores m') ks' := by
  obtain ⟨l', ts', done, step, shape, removed⟩ := graded.shape.remove (num s) m
  by_cases scored : scores m = some s
  · obtain ⟨-, ks', graded'⟩ := removed.graded faithful graded scored shape
    refine ⟨l', ts', done, ks', step, ?_⟩
    simpa only [scored, and_true] using graded'
  · simp only [scored, and_false, if_false]
    cases removed with
    | absent _ _ _ same same' =>
      subst same same'
      exact ⟨_, _, false, ks, step, graded⟩
    | @present pre t post split cut here =>
      have items := graded.items
      rw [split] at items
      obtain ⟨xs, ys, rfl, -, behind⟩ := items_append_eq_map items
      obtain ⟨k, ys, rfl, item, -⟩ := List.map_eq_cons_iff.mp behind.symm
      rw [← item, isAtItem_itemAt faithful.beq] at here
      exact absurd ((graded.inStep.entries m s).mpr (by simp [here])) scored

/-- `insert` gives the member the score. -/
theorem Inserted.graded {coins : List Bool} (inserted : Inserted l ts coins (num s) m l' ts')
    (faithful : Faithful num) (graded : Graded num l ts scores ks) (shape : Shape l' ts') :
    ∃ ks', Graded num l' ts' (fun m' => if m' = m then some s else scores m') ks' := by
  cases inserted with
  | @present pre t post split cut here same same' =>
    subst split same same'
    obtain ⟨xs, ys, rfl, -, behind⟩ := items_append_eq_map graded.items
    obtain ⟨k, ys, rfl, item, -⟩ := List.map_eq_cons_iff.mp behind.symm
    rw [← item, isAtItem_itemAt faithful.beq] at here
    subst here
    have scored : scores m = some s := (graded.inStep.entries m s).mpr (by simp)
    have unchanged : (fun m' => if m' = m then some s else scores m') = scores := by
      funext m'
      split
      · rename_i own
        rw [own, scored]
      · rfl
    rw [unchanged]
    exact ⟨_, graded⟩
  | @fresh pre post t split cut absent unscored item result table =>
    subst split result
    refine graded.added faithful cut ?_ item table shape
    cases scored : scores m with
    | none => rfl
    | some old =>
      have same := unscored (num old) (by rw [graded.table, scored]; rfl)
      rw [bne, Bool.not_eq_false', faithful.beq] at same
      rw [same] at scored
      obtain ⟨x, rest, first, here⟩ := cut.isAt_first faithful graded.inStep graded.items scored
      rw [absent x rest first] at here
      cases here
  | @moved old l₁ done _ _ pre post t _ _ _ scored differs removed shape₁ cut item result table =>
    subst result
    rw [graded.table, Option.map_eq_some_iff] at scored
    obtain ⟨x, scored, rfl⟩ := scored
    obtain ⟨-, ks₁, graded₁⟩ := removed.graded faithful graded scored shape₁
    obtain ⟨ks', graded'⟩ := graded₁.added faithful cut (if_pos rfl) item table shape
    have last : (fun m' => if m' = m then some s else if m' = m then none else scores m') =
        fun m' => if m' = m then some s else scores m' := by
      funext m'
      split <;> simp [*]
    rw [last] at graded'
    exact ⟨ks', graded'⟩

omit [BEq S] in
/-- `range_by_score` selects by score. -/
theorem Graded.rangeByScore [LE S] [DecidableLE S] (graded : Graded num l ts scores ks)
    (minScore maxScore : S) (low : ∀ x y, x ≤ y → num y < minScore → num x < minScore)
    (high : ∀ x y, x ≤ y → num y ≤ maxScore → num x ≤ maxScore) :
    l.rangeByScore minScore maxScore = some ((ks.filter fun k =>
      ¬ num (ofLex k).1 < minScore ∧ num (ofLex k).1 ≤ maxScore).map (itemAt num)) := by
  have score_mono : ∀ x y : E ×ₗ Bytes, x ≤ y → (ofLex x).1 ≤ (ofLex y).1 := by
    intro x y le
    rcases Prod.Lex.le_iff.mp le with smaller | ⟨equal, -⟩
    · exact smaller.le
    · exact equal.le
  have items := graded.items
  obtain ⟨pre, post, split, first, last, -, -, run⟩ := graded.shape.rangeByScore minScore maxScore
  rw [split] at items
  have asc := graded.inStep.ascending
  obtain ⟨xs, ys, rfl, front, behind⟩ := items_append_eq_map items
  obtain ⟨below, above⟩ := sides (b := fun x : Item S => decide (x.1 < minScore))
    (P := fun k => num (ofLex k).1 < minScore) (fun _ => decide_eq_true_iff)
    (fun x y le => low _ _ (score_mono x y le)) asc front behind
    (fun rest x ends => decide_eq_true (last rest x ends))
    (fun x rest starts => decide_eq_false (first x rest starts))
  have taken : ys.takeWhile (fun k => num (ofLex k).1 ≤ maxScore) =
      ys.filter fun k => num (ofLex k).1 ≤ maxScore := by
    apply takeWhile_eq_filter (List.pairwise_append.mp asc).2.1
    intro x y less passes
    simp only [decide_eq_true_eq] at passes ⊢
    exact high _ _ (score_mono x y less.le) passes
  have none : xs.filter (fun k => ¬ num (ofLex k).1 < minScore ∧ num (ofLex k).1 ≤ maxScore) = [] := by
    rw [List.filter_eq_nil_iff]
    intro x mem
    simp [below x mem]
  have all : ys.filter (fun k => ¬ num (ofLex k).1 < minScore ∧ num (ofLex k).1 ≤ maxScore) =
      ys.filter fun k => num (ofLex k).1 ≤ maxScore := by
    apply List.filter_congr
    intro y mem
    simp [above y mem]
  rw [run, List.filter_append, none, all, List.nil_append, ← taken, behind, List.takeWhile_map]
  rfl

end

/-! ### Linearly ordered scores -/

section
variable {S : Type} [LinearOrder S] [Inhabited S] {l : SkipList S}
  {ts pre post : List (Tower (Item S))} {score : S} {member : Bytes}
open Ranking

/-- The items in their order: by score, then by member. -/
def ranked (ts : List (Tower (Item S))) : List (S ×ₗ Bytes) := ts.map fun t => toLex t.item

/-- The list is strictly ascending, and the table of scores holds its elements. -/
structure Ordered (l : SkipList S) (ts : List (Tower (Item S))) : Prop where
  shape : Shape l ts
  ascending : Ascending (ranked ts)
  scores : ∀ m s, l.memberScores.find m = some s ↔ toLex (s, m) ∈ ranked ts

theorem ordered_empty : Ordered (empty : SkipList S) [] :=
  ⟨shape_empty, List.Pairwise.nil, fun m s => by simp [empty, ranked]⟩

omit [LinearOrder S] [Inhabited S] in
theorem items_eq (ts : List (Tower (Item S))) : items ts = (ranked ts).map ofLex := by
  simp [items, ranked]

omit [Inhabited S] in
theorem faithful_id : Faithful (id : S → S) := ⟨fun _ _ => Iff.rfl, fun _ _ => beq_iff_eq⟩

theorem Ordered.graded (ordered : Ordered l ts) : Graded id l ts l.scoreOf (ranked ts) :=
  ⟨ordered.shape, items_eq ts, ⟨ordered.ascending, ordered.scores⟩, fun _ => Option.map_id'.symm⟩

theorem Graded.ordered {scores : Bytes → Option S} {ks : List (S ×ₗ Bytes)}
    (graded : Graded id l ts scores ks) :
    Ordered l ts ∧ ∀ m, l.memberScores.find m = scores m := by
  have table (m : Bytes) : l.memberScores.find m = scores m :=
    (graded.table m).trans Option.map_id'
  have places : ranked ts = ks := by
    have items := graded.items
    rw [items_eq] at items
    exact List.map_injective_iff.mpr ofLex.injective items
  refine ⟨⟨graded.shape, ?_, ?_⟩, table⟩
  · rw [places]
    exact graded.inStep.ascending
  · intro m s
    rw [table, places]
    exact graded.inStep.entries m s

/-- `remove` of an element of the list succeeds. -/
theorem Ordered.remove (ordered : Ordered l ts) (scored : l.memberScores.find member = some score) :
    ∃ l' ts', l.remove score member = some (l', true) ∧ Ordered l' ts' ∧
      l'.memberScores = l.memberScores.erase member := by
  obtain ⟨l', ts', done, step, shape', removed⟩ := ordered.shape.remove score member
  have removed' : Removed l ts (id score) member l' ts' done := removed
  obtain ⟨rfl, ks, graded⟩ := removed'.graded faithful_id ordered.graded scored shape'
  exact ⟨l', ts', step, graded.ordered.1, removed.table⟩

/-- `insert` gives the member the score. -/
theorem Ordered.insert (ordered : Ordered l ts) (coins : List Bool) (score : S) (member : Bytes) :
    ∃ l' ts', l.insert coins score member = some l' ∧ Ordered l' ts' ∧
      ∀ m, l'.memberScores.find m = if m = member then some score else l.memberScores.find m := by
  obtain ⟨l', ts', step, shape', inserted⟩ := ordered.shape.insert coins score member
  have inserted' : Inserted l ts coins (id score) member l' ts' := inserted
  obtain ⟨ks, graded⟩ := inserted'.graded faithful_id ordered.graded shape'
  obtain ⟨ordered', table⟩ := graded.ordered
  exact ⟨l', ts', step, ordered', table⟩

/-- `range_by_score` selects by score. -/
theorem Ordered.rangeByScore (ordered : Ordered l ts) (minScore maxScore : S) :
    l.rangeByScore minScore maxScore =
      some (((ranked ts).filter fun x =>
        minScore ≤ (ofLex x).1 ∧ (ofLex x).1 ≤ maxScore).map ofLex) := by
  have selected := ordered.graded.rangeByScore minScore maxScore (fun _ _ => lt_of_le_of_lt)
    fun _ _ => le_trans
  simp only [id, not_lt] at selected
  exact selected

end

end FastGraph.SkipList
