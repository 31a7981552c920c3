import FastGraph.Index.Proofs.SkipList

/-!
# The chains of a skip list

The nodes on the chain of a level, in order, and what every call keeps of them: a node has as
many pointers as its `level` says, and the list is no higher than its highest node. With the
towers of the list that gives every chain as the part of the lowest one that is high enough.
-/

namespace FastGraph.SkipList
open Tower

section
variable {S : Type}

/-- The addresses and nodes that `forward[i]` leads to from `p` on. -/
def chainLoop (heap : UnorderedMap Nat (SkipNode S)) (i : Nat) :
    Nat → Option Nat → Option (List (Nat × SkipNode S))
  | _, none => some []
  | 0, some _ => none
  | fuel + 1, some p => do
    let node ← heap.find p
    let rest ← chainLoop heap i fuel (← node.forward[i]?)
    some ((p, node) :: rest)

/-- The chain of level `i`, from `head_->forward[i]` on. -/
def chain (l : SkipList S) (i : Nat) : Option (List (Nat × SkipNode S)) := do
  chainLoop l.heap i l.heap.size (← forward l.heap l.head i)

variable {heap heap' : UnorderedMap Nat (SkipNode S)} {l l' : SkipList S} {update : Nat → Option Nat}
  {p i n : Nat} {q : Option Nat}

/-! ### Levels of nodes -/

/-- Every node has as many pointers as its level says. -/
def Uniform (heap : UnorderedMap Nat (SkipNode S)) : Prop :=
  ∀ p node, heap.find p = some node → node.level = node.forward.length

theorem Uniform.set (uniform : Uniform heap) {node : SkipNode S}
    (level : node.level = node.forward.length) : Uniform (heap.set p node) := by
  intro p' node' found
  rw [UnorderedMap.find_set] at found
  split at found
  · cases found
    exact level
  · exact uniform p' node' found

theorem Uniform.erase (uniform : Uniform heap) : Uniform (heap.erase p) := by
  intro p' node found
  rw [UnorderedMap.find_erase] at found
  split at found
  · cases found
  · exact uniform p' node found

theorem Uniform.setForward (uniform : Uniform heap) (ran : setForward heap p i q = some heap') :
    Uniform heap' := by
  obtain ⟨node, found, ran⟩ := Option.bind_eq_some_iff.mp ran
  split at ran
  · cases ran
    apply uniform.set
    dsimp only
    rw [List.length_set]
    exact uniform p node found
  · cases ran

theorem Uniform.unlinkLoop {target todo : Nat} (uniform : Uniform heap)
    (ran : unlinkLoop target update todo i heap = some heap') : Uniform heap' := by
  induction todo generalizing heap i with
  | zero =>
    cases ran
    exact uniform
  | succ todo ih =>
    unfold SkipList.unlinkLoop at ran
    obtain ⟨u, -, ran⟩ := Option.bind_eq_some_iff.mp ran
    obtain ⟨next, -, ran⟩ := Option.bind_eq_some_iff.mp ran
    split at ran
    · cases ran
      exact uniform
    · obtain ⟨q, -, ran⟩ := Option.bind_eq_some_iff.mp ran
      obtain ⟨heap₁, set, ran⟩ := Option.bind_eq_some_iff.mp ran
      exact ih (uniform.setForward set) ran

theorem Uniform.linkAt (uniform : Uniform heap) (ran : linkAt n update heap i = some heap') :
    Uniform heap' := by
  unfold SkipList.linkAt at ran
  obtain ⟨u, -, ran⟩ := Option.bind_eq_some_iff.mp ran
  obtain ⟨q, -, ran⟩ := Option.bind_eq_some_iff.mp ran
  obtain ⟨heap₁, own, ran⟩ := Option.bind_eq_some_iff.mp ran
  exact (uniform.setForward own).setForward ran

theorem Uniform.linkLoop {levels : List Nat} (uniform : Uniform heap)
    (ran : levels.foldlM (SkipList.linkAt n update) heap = some heap') : Uniform heap' := by
  induction levels generalizing heap with
  | nil =>
    cases ran
    exact uniform
  | cons i levels ih =>
    rw [List.foldlM_cons] at ran
    obtain ⟨heap₁, first, ran⟩ := Option.bind_eq_some_iff.mp ran
    exact ih (uniform.linkAt first) ran

/-! ### The level of the list -/

/-- The list is of one level, or has a node on its highest level. -/
def Tight (l : SkipList S) : Prop :=
  l.level = 1 ∨ ∃ a, forward l.heap l.head (l.level - 1) = some (some a)

/-- `remove` stops lowering the level where the list has a node. -/
theorem shrinkLevel_stops {head level level' : Nat} (some_level : 1 ≤ level)
    (ran : shrinkLevel heap head level = some level') :
    level' = 1 ∨ ∃ a, forward heap head (level' - 1) = some (some a) := by
  induction level with
  | zero => omega
  | succ level ih =>
    cases level with
    | zero =>
      cases ran
      exact Or.inl rfl
    | succ level =>
      unfold shrinkLevel at ran
      obtain ⟨next, found, ran⟩ := Option.bind_eq_some_iff.mp ran
      cases next with
      | none => exact ih (by omega) ran
      | some a =>
        cases ran
        exact Or.inr ⟨a, found⟩

/-- What the calls keep of levels. -/
structure Leveled (l : SkipList S) : Prop where
  uniform : Uniform l.heap
  tight : Tight l

theorem leveled_empty [Inhabited S] : Leveled (empty : SkipList S) := by
  refine ⟨?_, Or.inl rfl⟩
  apply Uniform.set
  · intro p node found
    cases found
  · rw [SkipNode.make, List.length_replicate]

section
variable [BEq S] [LT S] [DecidableLT S] {score : S} {member : Bytes} {coins : List Bool}

theorem Leveled.remove {done : Bool} (leveled : Leveled l) (some_level : 1 ≤ l.level)
    (ran : l.remove score member = some (l', done)) : Leveled l' := by
  unfold SkipList.remove at ran
  obtain ⟨⟨cur, update⟩, -, ran⟩ := Option.bind_eq_some_iff.mp ran
  obtain ⟨u, -, ran⟩ := Option.bind_eq_some_iff.mp ran
  obtain ⟨next, -, ran⟩ := Option.bind_eq_some_iff.mp ran
  cases next with
  | none =>
    cases ran
    exact leveled
  | some target =>
    obtain ⟨node, -, ran⟩ := Option.bind_eq_some_iff.mp ran
    split at ran
    · cases ran
      exact leveled
    · obtain ⟨heap, unlinked, ran⟩ := Option.bind_eq_some_iff.mp ran
      obtain ⟨level, shrunk, ran⟩ := Option.bind_eq_some_iff.mp ran
      cases ran
      exact ⟨(leveled.uniform.unlinkLoop unlinked).erase, shrinkLevel_stops some_level shrunk⟩

/-- `insert` changes nothing, or puts a new node where a search of the list stops, after it has
taken out the member's old element if there is another score for it. -/
theorem insert_cases (ran : l.insert coins score member = some l') :
    l' = l ∨ ∃ l₁ cur update update₁,
      (l₁ = l ∨ ∃ old done, l.remove old member = some (l₁, done)) ∧
      l₁.search (less score member) update = some (cur, update₁) ∧
      l₁.insertNew update₁ coins score member = some l' := by
  unfold SkipList.insert at ran
  obtain ⟨⟨cur, update⟩, searched, ran⟩ := Option.bind_eq_some_iff.mp ran
  obtain ⟨u, -, ran⟩ := Option.bind_eq_some_iff.mp ran
  obtain ⟨next, -, ran⟩ := Option.bind_eq_some_iff.mp ran
  obtain ⟨present, -, ran⟩ := Option.bind_eq_some_iff.mp ran
  split at ran
  · cases ran
    exact Or.inl rfl
  · right
    split at ran
    · exact ⟨l, cur, _, update, Or.inl rfl, searched, ran⟩
    · rename_i old _
      split at ran
      · obtain ⟨⟨l₁, done⟩, removed, ran⟩ := Option.bind_eq_some_iff.mp ran
        obtain ⟨⟨cur₁, update₁⟩, searched₁, ran⟩ := Option.bind_eq_some_iff.mp ran
        exact ⟨l₁, cur₁, update, update₁, Or.inr ⟨old, done, removed⟩, searched₁, ran⟩
      · exact ⟨l, cur, _, update, Or.inl rfl, searched, ran⟩

end

/-! ### Levels of a list of towers -/

variable [Inhabited S] {ts pre post : List (Tower (Item S))} {t : Tower (Item S)}

theorem Shape.head_forward (shape : Shape l ts) (small : i < skipMaxLevel) :
    forward l.heap l.head i = some (nextAt i ts) := by
  have record := shape.laid [] (headTower l) ts rfl
  exact forward_of_record record (shows_headTower small)

/-- A list is tight if it is as high as its highest tower. -/
theorem Shape.tight_iff (shape : Shape l ts) :
    Tight l ↔ l.level = 1 ∨ ∃ t ∈ ts, t.height = l.level := by
  have range := shape.level
  have next := shape.head_forward (i := l.level - 1) (by omega)
  unfold Tight
  rw [next]
  apply or_congr_right
  constructor
  · rintro ⟨a, points⟩
    obtain ⟨front, t, back, rfl, -, shown, -⟩ := nextAt_eq_some (Option.some.inj points)
    have mem : t ∈ front ++ t :: back := by simp
    have heights := shape.heights t mem
    have := (shape.shows_iff mem _).mp shown
    exact ⟨t, mem, by omega⟩
  · rintro ⟨t, mem, high⟩
    cases points : nextAt (l.level - 1) ts with
    | some a => exact ⟨a, rfl⟩
    | none =>
      have hidden := nextAt_eq_none_iff.mp points t mem
      have shown := (shape.shows_iff mem (l.level - 1)).mpr (by omega)
      rw [hidden] at shown
      cases shown

section
variable [BEq S] [LT S] [DecidableLT S] {score : S} {member : Bytes} {coins : List Bool}

omit [BEq S] [LT S] [DecidableLT S] in
theorem Leveled.insertNew (leveled : Leveled l) (shape : Shape l (pre ++ post))
    (written : ∀ j, j < l.level → update j = some (lastAt j (headTower l) pre).addr)
    (ran : l.insertNew update coins score member = some l') : Leveled l' := by
  obtain ⟨l'', ran', shape', -⟩ := shape.insertNew written coins score member
  obtain rfl := Option.some.inj (ran.symm.trans ran')
  unfold SkipList.insertNew at ran
  obtain ⟨heap, linked, ran⟩ := Option.bind_eq_some_iff.mp ran
  cases ran
  refine ⟨?_, shape'.tight_iff.mpr ?_⟩
  · apply (leveled.uniform.set _).linkLoop linked
    rw [SkipNode.make, List.length_replicate]
  · dsimp only
    split
    · exact Or.inr ⟨_, List.mem_append_right _ List.mem_cons_self, rfl⟩
    · rcases shape.tight_iff.mp leveled.tight with one | ⟨t, mem, high⟩
      · exact Or.inl one
      · refine Or.inr ⟨t, ?_, high⟩
        rcases List.mem_append.mp mem with before | after
        · exact List.mem_append_left _ before
        · exact List.mem_append_right _ (List.mem_cons_of_mem _ after)

theorem Leveled.insert (leveled : Leveled l) (shape : Shape l ts)
    (ran : l.insert coins score member = some l') : Leveled l' := by
  rcases insert_cases ran with rfl | ⟨l₁, cur, update, update₁, source, searched, added⟩
  · exact leveled
  · obtain ⟨leveled₁, ts₁, shape₁⟩ : Leveled l₁ ∧ ∃ ts₁, Shape l₁ ts₁ := by
      rcases source with rfl | ⟨old, done, removed⟩
      · exact ⟨leveled, ts, shape⟩
      · obtain ⟨l₂, ts₂, done', step, shape₂, -⟩ := shape.remove old member
        cases removed.symm.trans step
        exact ⟨leveled.remove shape.level.1 removed, ts₂, shape₂⟩
    obtain ⟨pre, post, cur', update', rfl, -, run, written, -⟩ :=
      shape₁.searchLess score member update
    cases searched.symm.trans run
    exact leveled₁.insertNew shape₁ written added

end

/-! ### Chains of a list of towers -/

/-- The address of a tower and the node there. -/
def nodeOf (l : SkipList S) (t : Tower (Item S)) : Nat × SkipNode S :=
  (t.addr, (l.heap.find t.addr).getD (SkipNode.make 0 default []))

/-- A tower and its node. -/
theorem Shape.at_tower (shape : Shape l (pre ++ t :: post)) :
    l.heap.find t.addr = some (nodeOf l t).2 ∧
      ((nodeOf l t).2.score, (nodeOf l t).2.member) = t.item ∧
      (nodeOf l t).2.forward.length = t.height ∧
      ∀ i, t.shows i = true → (nodeOf l t).2.forward[i]? = some (nextAt i post) := by
  obtain ⟨f, stored, length, links⟩ := shape.stored
  obtain ⟨node, found, score, member, rfl⟩ := find_of_view stored
  have here : (nodeOf l t).2 = node := by
    unfold SkipList.nodeOf
    rw [found]
    rfl
  rw [here]
  exact ⟨found, by rw [score, member], length, links⟩

/-- A chain leads through the towers that show on its level. -/
theorem Shape.chainLoop (shape : Shape l (pre ++ post)) (i : Nat) {fuel : Nat}
    (enough : post.length ≤ fuel) :
    chainLoop l.heap i fuel (nextAt i post) =
      some ((post.filter (·.shows i)).map (nodeOf l)) := by
  induction post generalizing pre fuel with
  | nil => cases fuel <;> rfl
  | cons t post ih =>
    obtain ⟨found, -, -, links⟩ := shape.at_tower
    have shape' : Shape l ((pre ++ [t]) ++ post) := by simpa using shape
    rw [List.length_cons] at enough
    rw [nextAt_cons]
    cases shown : t.shows i with
    | false =>
      rw [if_neg (by simp), List.filter_cons_of_neg (by simp [shown])]
      exact ih shape' (by omega)
    | true =>
      cases fuel with
      | zero => omega
      | succ fuel =>
        rw [if_pos rfl, List.filter_cons_of_pos (by simpa using shown),
          SkipList.chainLoop]
        simp only [found, links i shown, ih shape' (by omega : post.length ≤ fuel),
          Option.bind_eq_bind, Option.bind_some]
        rfl

theorem Shape.chain (shape : Shape l ts) (small : i < skipMaxLevel) :
    l.chain i = some ((ts.filter (·.shows i)).map (nodeOf l)) := by
  have whole : Shape l ([] ++ ts) := shape
  unfold SkipList.chain
  rw [shape.head_forward small]
  exact whole.chainLoop i (by rw [shape.heapSize]; omega)

end

/-! ### Runs -/

section
variable {S : Type} [LinearOrder S] [Inhabited S] {l l' : SkipList S} {ts : List (Tower (Item S))}
open Ranking

/-- The order of the nodes. -/
def key (x : Nat × SkipNode S) : S ×ₗ Bytes := toLex (x.2.score, x.2.member)

/-- The chains of the list, its level, its size and its table of scores agree; `nodes` are those
of the lowest chain. -/
structure Chained (l : SkipList S) (nodes : List (Nat × SkipNode S)) : Prop where
  lowest : l.chain 0 = some nodes
  sorted : nodes.Pairwise fun x y => key x < key y
  once : (nodes.map fun x => x.2.member).Nodup
  chains : ∀ i, i < skipMaxLevel → l.chain i = some (nodes.filter fun x => i < x.2.level)
  heads : ∀ i, l.level ≤ i → i < skipMaxLevel → forward l.heap l.head i = some none
  within : ∀ x ∈ nodes, 1 ≤ x.2.level ∧ x.2.level ≤ l.level ∧ l.level ≤ skipMaxLevel
  tight : l.level = 1 ∨ ∃ x ∈ nodes, x.2.level = l.level
  size : l.size = nodes.length
  scores : ∀ m s, l.memberScores.find m = some s ↔ ∃ x ∈ nodes, x.2.member = m ∧ x.2.score = s

theorem Op.call_spec (op : Op S) (ordered : Ordered l ts) (leveled : Leveled l) :
    ∃ l' ts', op.call l = some l' ∧ Ordered l' ts' ∧ Leveled l' := by
  cases op with
  | insert coins score member =>
    obtain ⟨l', ts', step, ordered', -⟩ := ordered.insert coins score member
    exact ⟨l', ts', step, ordered', leveled.insert ordered.shape step⟩
  | remove score member =>
    obtain ⟨l', ts', done, ks, step, graded⟩ := ordered.graded.remove faithful_id score member
    have removed : l.remove score member = some (l', done) := step
    refine ⟨l', ts', ?_, graded.ordered.1, leveled.remove ordered.shape.level.1 removed⟩
    rw [Op.call, removed]
    rfl

theorem calls_spec (ops : List (Op S)) (ordered : Ordered l ts) (leveled : Leveled l) :
    ∃ l' ts', ops.foldlM Op.call l = some l' ∧ Ordered l' ts' ∧ Leveled l' := by
  induction ops generalizing l ts with
  | nil => exact ⟨l, ts, rfl, ordered, leveled⟩
  | cons op ops ih =>
    obtain ⟨l₁, ts₁, first, ordered₁, leveled₁⟩ := op.call_spec ordered leveled
    obtain ⟨l', ts', rest, ordered', leveled'⟩ := ih ordered₁ leveled₁
    refine ⟨l', ts', ?_, ordered', leveled'⟩
    rw [List.foldlM_cons, first]
    exact rest

theorem Ordered.at_tower (ordered : Ordered l ts) (leveled : Leveled l) {t : Tower (Item S)}
    (mem : t ∈ ts) :
    key (nodeOf l t) = toLex t.item ∧ (nodeOf l t).2.level = t.height := by
  obtain ⟨pre, post, rfl⟩ := List.append_of_mem mem
  obtain ⟨found, item, length, -⟩ := ordered.shape.at_tower
  exact ⟨congrArg toLex item, by rw [leveled.uniform _ _ found, length]⟩

theorem Ordered.chained (ordered : Ordered l ts) (leveled : Leveled l) :
    Chained l (ts.map (nodeOf l)) := by
  have shape := ordered.shape
  have keys : (ts.map (nodeOf l)).map key = ranked ts := by
    rw [List.map_map]
    apply List.map_congr_left
    intro t mem
    exact (ordered.at_tower leveled mem).1
  have chains (i : Nat) (small : i < skipMaxLevel) : l.chain i =
      some ((ts.map (nodeOf l)).filter fun x => i < x.2.level) := by
    rw [shape.chain small, List.filter_map]
    congr 2
    apply List.filter_congr
    intro t mem
    rw [Bool.eq_iff_iff, shape.shows_iff mem, Function.comp_apply,
      (ordered.at_tower leveled mem).2, decide_eq_true_iff]
  have within : ∀ x ∈ ts.map (nodeOf l), 1 ≤ x.2.level ∧ x.2.level ≤ l.level := by
    rw [List.forall_mem_map]
    intro t mem
    rw [(ordered.at_tower leveled mem).2]
    exact shape.heights t mem
  refine ⟨?_, ?_, ?_, chains, ?_, ?_, ?_, ?_, ?_⟩
  · rw [chains 0 (by decide), List.filter_eq_self.mpr]
    intro x mem
    exact decide_eq_true (within x mem).1
  · have ascending := ordered.ascending
    rw [← keys] at ascending
    exact List.pairwise_map.mp ascending
  · have once := ordered.graded.inStep.nodup
    rw [← keys, List.map_map] at once
    exact once
  · intro i above small
    rw [shape.head_forward small, nextAt_eq_none_iff.mpr]
    exact hiddenAt_of_heights shape.whole fun t mem => (shape.heights t mem).2.trans above
  · intro x mem
    exact ⟨(within x mem).1, (within x mem).2, shape.level.2⟩
  · rcases shape.tight_iff.mp leveled.tight with one | ⟨t, mem, high⟩
    · exact Or.inl one
    · exact Or.inr ⟨_, List.mem_map_of_mem mem, (ordered.at_tower leveled mem).2.trans high⟩
  · rw [shape.size, List.length_map]
  · intro m s
    rw [ordered.scores, ← keys, List.mem_map]
    apply exists_congr
    intro x
    rw [key, toLex_inj, Prod.mk.injEq]
    tauto

/-- After any inserts and removes the list has its chains, its level, its size and its table of
scores in order. -/
theorem calls_chained (ops : List (Op S)) : ∃ l nodes,
    ops.foldlM Op.call (empty : SkipList S) = some l ∧ Chained l nodes := by
  obtain ⟨l, ts, ran, ordered, leveled⟩ := calls_spec ops ordered_empty leveled_empty
  exact ⟨l, _, ran, ordered.chained leveled⟩

end

end FastGraph.SkipList
