import FastGraph.Index.Proofs.SlabList

/-!
# A family of skip lists on one slab allocator

The lists of a family, call after call, beside lists of which every node has an address of its own:
the replies are the same, though the allocator hands out addresses of freed nodes again, also to
other lists. The nodes of all lists lie in blocks that are apart.
-/

namespace FastGraph.ListCall
open Tower SlabAllocator SkipList

variable {K S T : Type} [DecidableEq K] {L : NodeLayout} {s s' : SlabAllocator T}
  {lists lists' refs refs' : UnorderedMap K (SkipList S)} {got : Option Nat}

/-! ### The nodes of a family -/

/-- A list of the family has a node with so many levels at the address. -/
def owned (lists : UnorderedMap K (SkipList S)) (k : K) (a lvl : Nat) : Prop :=
  ∃ c, lists.find k = some c ∧ owns c.heap a lvl

/-- Another list of the family does. -/
def others (lists : UnorderedMap K (SkipList S)) (k : K) (a lvl : Nat) : Prop :=
  ∃ k', k' ≠ k ∧ owned lists k' a lvl

/-- The live requests are the nodes of the family. -/
structure Ledger (L : NodeLayout) (s : SlabAllocator T) (lists : UnorderedMap K (SkipList S)) :
    Prop where
  live : ∃ free live, Kept s free live ∧ ∀ e : Extent, e ∈ live ↔
    ∃ k lvl, owned lists k e.offset lvl ∧ e.size = L.nodeSize lvl
  once : ∀ k k' a i j, owned lists k a i → owned lists k' a j → k = k'
  small : ∀ k a lvl, owned lists k a lvl → lvl ≤ skipMaxLevel

theorem owned_eq {k : K} {c : SkipList S} (found : lists.find k = some c) :
    owned lists k = owns c.heap := by
  funext a lvl
  simp [owned, found]

theorem owned_absent {k : K} (absent : lists.find k = none) :
    owned lists k = owns (∅ : UnorderedMap Nat (SkipNode S)) := by
  funext a lvl
  simp [owned, absent, owns, levelAt]

/-- One list of the family and the rest. -/
theorem Ledger.books (ledger : Ledger L s lists) (k : K) :
    Books L s (owned lists k) (others lists k) where
  live := by
    obtain ⟨free, live, kept, all⟩ := ledger.live
    refine ⟨free, live, kept, ?_⟩
    intro e
    rw [all]
    constructor
    · rintro ⟨k', lvl, mine, size⟩
      by_cases here : k' = k
      · exact ⟨lvl, Or.inl (here ▸ mine), size⟩
      · exact ⟨lvl, Or.inr ⟨k', here, mine⟩, size⟩
    · rintro ⟨lvl, mine | ⟨k', -, theirs⟩, size⟩
      · exact ⟨k, lvl, mine, size⟩
      · exact ⟨k', lvl, theirs, size⟩
  once := by
    rintro a i j mine ⟨k', differ, theirs⟩
    exact differ (ledger.once k' k a j i theirs mine)
  small := ledger.small k

/-- One list of the family changes. -/
theorem Ledger.set (ledger : Ledger L s lists) {k : K} {c : SkipList S}
    (books : Books L s' (owns c.heap) (others lists k)) : Ledger L s' (lists.set k c) := by
  have mine : owned (lists.set k c) k = owns c.heap := owned_eq (UnorderedMap.find_set_self _ _ _)
  have theirs (k' : K) (other : k' ≠ k) : owned (lists.set k c) k' = owned lists k' := by
    funext a lvl
    unfold owned
    rw [UnorderedMap.find_set, if_neg other]
  refine ⟨?_, ?_, ?_⟩
  · obtain ⟨free, live, kept, all⟩ := books.live
    refine ⟨free, live, kept, ?_⟩
    intro e
    rw [all]
    constructor
    · rintro ⟨lvl, ours | ⟨k', other, found⟩, size⟩
      · exact ⟨k, lvl, by rwa [mine], size⟩
      · exact ⟨k', lvl, by rwa [theirs k' other], size⟩
    · rintro ⟨k', lvl, found, size⟩
      by_cases here : k' = k
      · subst here
        rw [mine] at found
        exact ⟨lvl, Or.inl found, size⟩
      · rw [theirs k' here] at found
        exact ⟨lvl, Or.inr ⟨k', here, found⟩, size⟩
  · intro k' k'' a i j one two
    by_cases first : k' = k
    · by_cases second : k'' = k
      · exact first.trans second.symm
      · subst first
        rw [mine] at one
        rw [theirs k'' second] at two
        exact absurd ⟨k'', second, two⟩ (books.once a i j one)
    · rw [theirs k' first] at one
      by_cases second : k'' = k
      · subst second
        rw [mine] at two
        exact absurd ⟨k', first, one⟩ (books.once a j i two)
      · rw [theirs k'' second] at two
        exact ledger.once k' k'' a i j one two
  · intro k' a lvl found
    by_cases here : k' = k
    · subst here
      rw [mine] at found
      exact books.small a lvl found
    · rw [theirs k' here] at found
      exact ledger.small k' a lvl found

/-! ### Calls -/

section
variable [Inhabited S]

/-- The lists are those of `refs` with their nodes at other addresses. -/
def Mirrored (refs lists : UnorderedMap K (SkipList S)) : Prop :=
  ∀ k, (refs.find k = none ∧ lists.find k = none) ∨
    ∃ l c ρ ts, refs.find k = some l ∧ lists.find k = some c ∧ Shape l ts ∧ Moved ρ l c

theorem Mirrored.set (mirrored : Mirrored refs lists) (k : K) {l c : SkipList S} {ρ : Nat → Nat}
    {ts : List (Tower (SkipList.Item S))} (shape : Shape l ts) (moved : Moved ρ l c) :
    Mirrored (refs.set k l) (lists.set k c) := by
  intro k'
  rw [UnorderedMap.find_set, UnorderedMap.find_set]
  split
  · exact Or.inr ⟨l, c, ρ, ts, rfl, rfl, shape, moved⟩
  · exact mirrored k'

/-- A new list on the allocator is a new list. -/
theorem emptyOn_spec {rest : Nat → Nat → Prop}
    (books : Books L s (owns (∅ : UnorderedMap Nat (SkipNode S))) rest)
    (fresh : s.Fresh got (capacity (L.nodeSize skipMaxLevel))) :
    (emptyOn L s got = (none : Option (SlabAllocator T × SkipList S)) ∧ got = none) ∨
      ∃ s' c ρ, emptyOn L s got = some (s', c) ∧ Moved ρ (SkipList.empty : SkipList S) c ∧
        Books L s' (owns c.heap) rest := by
  rcases books.make le_rfl fresh default [] with ⟨refused, exhausted⟩ | ⟨s', n, made, -, books'⟩
  · exact Or.inl ⟨by simp [emptyOn, refused], exhausted⟩
  · have blank : Carried id (∅ : UnorderedMap Nat (SkipNode S)) ∅ := Rekeyed.empty
    have same : ∀ x node, (∅ : UnorderedMap Nat (SkipNode S)).find x = some node →
        SkipNode.rename (Function.update id 0 n) node = SkipNode.rename id node := by
      intro x node found
      cases found
    have carried := blank.extend (a := 0) (b := n) rfl rfl same (SkipNode.make skipMaxLevel default [])
    have node : SkipNode.rename (Function.update id 0 n)
        (SkipNode.make skipMaxLevel (default : S) []) = SkipNode.make skipMaxLevel default [] := by
      simp [SkipNode.rename, SkipNode.make]
    rw [node] at carried
    refine Or.inr ⟨s', ⟨UnorderedMap.set ∅ n (SkipNode.make skipMaxLevel default []), 0, n, 1, 0, ∅⟩,
      Function.update id 0 n, by simp [emptyOn, made], ⟨carried, ?_, rfl, rfl, rfl, ?_⟩, books'⟩
    · exact (Function.update_self 0 n id).symm
    · apply Uniform.set
      · intro p node found
        cases found
      · rw [SkipNode.make, List.length_replicate]

variable [BEq S] [LT S] [DecidableLT S]

/-- What a call does in both worlds: it is refused in both, or returns the same in both, unless
there is no memory. -/
inductive Both (L : NodeLayout) (s : SlabAllocator T) (got : Option Nat)
    (refs lists : UnorderedMap K (SkipList S)) (call : ListCall K S) : Prop
  | refused (plain : call.run refs = none) (on : call.runOn L s got lists = none)
  | exhausted (refs' : UnorderedMap K (SkipList S)) (reply : Bool)
      (plain : call.run refs = some (refs', reply)) (on : call.runOn L s got lists = none)
      (memory : got = none)
  | served (refs' lists' : UnorderedMap K (SkipList S)) (s' : SlabAllocator T) (reply : Bool)
      (plain : call.run refs = some (refs', reply))
      (on : call.runOn L s got lists = some (s', lists', reply))
      (mirrored : Mirrored refs' lists') (ledger : Ledger L s' lists')

/-- One call. -/
theorem both (mirrored : Mirrored refs lists) (ledger : Ledger L s lists) (call : ListCall K S)
    (fresh : ∀ lvl ∈ call.levels, s.Fresh got (capacity (L.nodeSize lvl))) :
    Both L s got refs lists call := by
  cases call with
  | create k =>
    rcases mirrored k with ⟨absent, absent'⟩ | ⟨l, c, -, -, found, found', -, -⟩
    · have books := ledger.books k
      rw [owned_absent absent'] at books
      rcases emptyOn_spec books (fresh _ rfl) with ⟨refused, memory⟩ | ⟨s', c, ρ, made, moved, books'⟩
      · exact .exhausted (refs.set k SkipList.empty) true (by simp [run, absent])
          (by simp [runOn, absent', refused]) memory
      · exact .served (refs.set k SkipList.empty) (lists.set k c) s' true (by simp [run, absent])
          (by simp [runOn, absent', made]) (mirrored.set k shape_empty moved) (ledger.set books')
    · exact .refused (by simp [run, found]) (by simp [runOn, found'])
  | insert k coins score member =>
    rcases mirrored k with ⟨absent, absent'⟩ | ⟨l, c, ρ, ts, found, found', shape, moved⟩
    · exact .refused (by simp [run, absent]) (by simp [runOn, absent'])
    · have books := ledger.books k
      rw [owned_eq found'] at books
      obtain ⟨l', ts', ran, shape', -⟩ := shape.insert coins score member
      rcases moved.insertOn shape books (fresh _ rfl) ran with
        ⟨refused, memory⟩ | ⟨s', c', ρ', on, moved', books'⟩
      · exact .exhausted (refs.set k l') true (by simp [run, found, ran])
          (by simp [runOn, found', refused]) memory
      · exact .served (refs.set k l') (lists.set k c') s' true (by simp [run, found, ran])
          (by simp [runOn, found', on]) (mirrored.set k shape' moved') (ledger.set books')
  | remove k score member =>
    rcases mirrored k with ⟨absent, absent'⟩ | ⟨l, c, ρ, ts, found, found', shape, moved⟩
    · exact .refused (by simp [run, absent]) (by simp [runOn, absent'])
    · have books := ledger.books k
      rw [owned_eq found'] at books
      obtain ⟨l', ts', done, ran, shape', -⟩ := shape.remove score member
      obtain ⟨s', c', on, moved', books', -⟩ := moved.removeOn shape.closed books ran
      exact .served (refs.set k l') (lists.set k c') s' done (by simp [run, found, ran])
        (by simp [runOn, found', on]) (mirrored.set k shape' moved') (ledger.set books')

/-! ### Runs -/

/-- What calls on a family lead to that begins without lists, with what `malloc` may return in
each. -/
inductive Runs (L : NodeLayout) : SlabAllocator T → UnorderedMap K (SkipList S) →
    List (ListCall K S) → List Bool → Prop where
  | start : Runs L .empty ∅ [] []
  | called {s s' : SlabAllocator T} {lists lists' : UnorderedMap K (SkipList S)}
      {calls : List (ListCall K S)} {replies : List Bool} {got : Option Nat} {call : ListCall K S}
      {reply : Bool} (runs : Runs L s lists calls replies)
      (fresh : ∀ lvl ∈ call.levels, s.Fresh got (capacity (L.nodeSize lvl)))
      (step : call.runOn L s got lists = some (s', lists', reply)) :
      Runs L s' lists' (calls ++ [call]) (replies ++ [reply])

variable {calls : List (ListCall K S)} {replies : List Bool}

theorem runAll_concat {start : UnorderedMap K (SkipList S)} {call : ListCall K S} {reply : Bool}
    (ran : runAll calls start = some (refs, replies)) (next : call.run refs = some (refs', reply)) :
    runAll (calls ++ [call]) start = some (refs', replies ++ [reply]) := by
  induction calls generalizing start replies with
  | nil =>
    cases ran
    simp [runAll, next]
  | cons c calls ih =>
    obtain ⟨⟨lists, first⟩, head, ran⟩ := Option.bind_eq_some_iff.mp ran
    obtain ⟨⟨last, more⟩, tail, ran⟩ := Option.bind_eq_some_iff.mp ran
    cases ran
    simp [runAll, head, ih tail]

omit [BEq S] [LT S] [DecidableLT S] in
theorem mirrored_empty : Mirrored (∅ : UnorderedMap K (SkipList S)) ∅ :=
  fun _ => Or.inl ⟨rfl, rfl⟩

omit [Inhabited S] [BEq S] [LT S] [DecidableLT S] in
theorem ledger_empty : Ledger L (SlabAllocator.empty : SlabAllocator T)
    (∅ : UnorderedMap K (SkipList S)) := by
  have none (k : K) (a lvl : Nat) : ¬ owned (∅ : UnorderedMap K (SkipList S)) k a lvl := by
    rintro ⟨c, found, -⟩
    cases found
  refine ⟨⟨_, [], Kept.empty, ?_⟩, ?_, ?_⟩
  · simp [none]
  · exact fun k _ a i _ found => absurd found (none k a i)
  · exact fun k a lvl found => absurd found (none k a lvl)

theorem Runs.beside (runs : Runs L s lists calls replies) :
    ∃ refs, runAll calls ∅ = some (refs, replies) ∧ Mirrored refs lists ∧ Ledger L s lists := by
  induction runs with
  | start => exact ⟨∅, rfl, mirrored_empty, ledger_empty⟩
  | @called s s' lists lists' calls replies got call reply runs fresh step ih =>
    obtain ⟨refs, ran, mirrored, ledger⟩ := ih
    cases both mirrored ledger call fresh with
    | refused plain on => cases on.symm.trans step
    | exhausted refs' reply plain on memory => cases on.symm.trans step
    | served refs' lists' s' reply plain on mirrored' ledger' =>
      cases on.symm.trans step
      exact ⟨refs', runAll_concat ran plain, mirrored', ledger'⟩

/-! ### What a client sees -/

/-- The two lists answer alike. -/
structure Agrees [LE S] [DecidableLE S] (l c : SkipList S) : Prop where
  scoreOf : ∀ member, c.scoreOf member = l.scoreOf member
  size : c.size = l.size
  rangeByRank : ∀ start stop, ∃ r,
    l.rangeByRank start stop = some r ∧ c.rangeByRank start stop = some r
  rangeByScore : ∀ minScore maxScore, ∃ r,
    l.rangeByScore minScore maxScore = some r ∧ c.rangeByScore minScore maxScore = some r

omit [BEq S] in
theorem agrees_of_moved [LE S] [DecidableLE S] {l c : SkipList S} {ρ : Nat → Nat}
    {ts : List (Tower (SkipList.Item S))} (shape : Shape l ts) (moved : Moved ρ l c) : Agrees l c := by
  refine ⟨?_, moved.size, ?_, ?_⟩
  · intro member
    unfold scoreOf
    rw [moved.scores]
  · intro start stop
    have ranked := shape.rangeByRank start stop
    exact ⟨_, ranked, moved.rangeByRank ranked⟩
  · intro minScore maxScore
    obtain ⟨pre, post, -, -, -, -, -, ranged⟩ := shape.rangeByScore minScore maxScore
    exact ⟨_, ranged, moved.rangeByScore ranged⟩

/-- Two elements that use one block after the other. -/
theorem runs_recycled : ∃ (L : NodeLayout) (s : SlabAllocator Unit)
    (lists : UnorderedMap Nat (SkipList Nat)), s.heap.length = 2 ∧
      Runs L s lists [.create 0, .insert 0 [] 5 [97], .remove 0 5 [97], .insert 0 [] 7 [98]]
        [true, true, true, true] := by
  have made : (create 0 : ListCall Nat Nat).runOn ⟨56, by decide⟩ (.empty : SlabAllocator Unit)
      (some 1000) ∅ = some (_, _, true) := rfl
  have first := Runs.start.called (by simp [Fresh, SlabAllocator.empty]) made
  have second := first.called (by
      rintro lvl ⟨⟩ p ⟨⟩ e mem
      obtain rfl := List.mem_singleton.mp mem
      decide)
    (rfl : (insert 0 [] 5 [97] : ListCall Nat Nat).runOn _ _ (some 2000) _ = some (_, _, true))
  have third := second.called (by simp [Fresh])
    (rfl : (remove 0 5 [97] : ListCall Nat Nat).runOn _ _ none _ = some (_, _, true))
  have fourth := third.called (by simp [Fresh])
    (rfl : (insert 0 [] 7 [98] : ListCall Nat Nat).runOn _ _ none _ = some (_, _, true))
  exact ⟨_, _, _, rfl, fourth⟩

/-- Lists that share an allocator reply and answer as lists whose nodes all have addresses of their
own, and a call that is served there is served here if `malloc` has memory. -/
theorem lists_agree [LE S] [DecidableLE S] (runs : Runs L s lists calls replies) :
    ∃ refs, runAll calls ∅ = some (refs, replies) ∧
      (∀ k, (lists.find k).isSome = (refs.find k).isSome) ∧
      (∀ k l c, refs.find k = some l → lists.find k = some c → Agrees l c) ∧
      ∀ (call : ListCall K S) (ptr : Nat),
        (∀ lvl ∈ call.levels, s.Fresh (some ptr) (capacity (L.nodeSize lvl))) →
        (call.runOn L s (some ptr) lists).isSome = (call.run refs).isSome := by
  obtain ⟨refs, ran, mirrored, ledger⟩ := runs.beside
  refine ⟨refs, ran, ?_, ?_, ?_⟩
  · intro k
    rcases mirrored k with ⟨absent, absent'⟩ | ⟨l, c, -, -, found, found', -, -⟩
    · rw [absent, absent']
    · rw [found, found']
      rfl
  · intro k l c found found'
    rcases mirrored k with ⟨absent, -⟩ | ⟨l', c', ρ, ts, here, here', shape, moved⟩
    · cases absent.symm.trans found
    · cases here.symm.trans found
      cases here'.symm.trans found'
      exact agrees_of_moved shape moved
  · intro call ptr fresh
    cases both mirrored ledger call fresh with
    | refused plain on => rw [plain, on]; rfl
    | exhausted refs' reply plain on memory => cases memory
    | served refs' lists' s' reply plain on => rw [plain, on]; rfl

/-- The element that uses the block of another is found as if it had one of its own. -/
theorem lists_agree_recycled : ∃ (s : SlabAllocator Unit) (lists refs : UnorderedMap Nat (SkipList Nat)),
    s.heap.length = 2 ∧
      runAll [.create 0, .insert 0 [] 5 [97], .remove 0 5 [97], .insert 0 [] 7 [98]] ∅ =
        some (refs, [true, true, true, true]) ∧
      ∀ k l c, refs.find k = some l → lists.find k = some c → Agrees l c := by
  obtain ⟨L, s, lists, two, runs⟩ := runs_recycled
  obtain ⟨refs, ran, -, agree, -⟩ := lists_agree runs
  exact ⟨s, lists, refs, two, ran, agree⟩

/-- The nodes of all lists lie in blocks of their own that have room for their pointers, and the
blocks that the C library keeps are these and those on the free lists, each once. -/
structure Housed (L : NodeLayout) (s : SlabAllocator T) (lists : UnorderedMap K (SkipList S)) :
    Prop where
  room : ∀ k c a node, lists.find k = some c → c.heap.find a = some node →
    L.sizeofNode + 8 * (node.forward.length - 1) ≤ (block ⟨a, L.nodeSize node.level⟩).size
  apart : ∀ k k' c c' a a' node node', lists.find k = some c → lists.find k' = some c' →
    c.heap.find a = some node → c'.heap.find a' = some node' → (k, a) ≠ (k', a') →
    (block ⟨a, L.nodeSize node.level⟩).Apart (block ⟨a', L.nodeSize node'.level⟩)
  listed : ∃ (free : Fin 9 → List Nat) (live : List Extent),
    (∀ cls, Threaded (PoolAllocator.linkAt s.memory) (s.pools cls) (free cls)) ∧
    (live.map block ++ allFree free).Perm s.heap ∧ live.Nodup ∧
    ∀ e : Extent, e ∈ live ↔ ∃ k c node, lists.find k = some c ∧
      c.heap.find e.offset = some node ∧ e.size = L.nodeSize node.level

omit [Inhabited S] [BEq S] [LT S] [DecidableLT S] in
theorem owned_iff {k : K} {a lvl : Nat} : owned lists k a lvl ↔
    ∃ c node, lists.find k = some c ∧ c.heap.find a = some node ∧ node.level = lvl := by
  constructor
  · rintro ⟨c, found, here⟩
    obtain ⟨node, held, level⟩ := Option.map_eq_some_iff.mp here
    exact ⟨c, node, found, held, level⟩
  · rintro ⟨c, node, found, held, level⟩
    exact ⟨c, found, by simp [owns, levelAt, held, level]⟩

theorem nodes_housed (runs : Runs L s lists calls replies) : Housed L s lists := by
  obtain ⟨refs, -, mirrored, ledger⟩ := runs.beside
  obtain ⟨free, live, kept, all⟩ := ledger.live
  refine ⟨?_, ?_, free, live, kept.threaded, kept.shared, nodup_live kept, ?_⟩
  · intro k c a node found held
    rcases mirrored k with ⟨-, absent⟩ | ⟨l, c', ρ, ts, -, here, -, moved⟩
    · cases absent.symm.trans found
    · cases here.symm.trans found
      rw [← moved.uniform a node held]
      exact le_capacity _
  · intro k k' c c' a a' node node' found found' held held' differ
    have one := owned_iff.mpr ⟨c, node, found, held, rfl⟩
    have two := owned_iff.mpr ⟨c', node', found', held', rfl⟩
    have mem := (all ⟨a, L.nodeSize node.level⟩).mpr ⟨k, _, one, rfl⟩
    have mem' := (all ⟨a', L.nodeSize node'.level⟩).mpr ⟨k', _, two, rfl⟩
    refine kept.apart_erase mem _ ((List.mem_erase_of_ne ?_).mpr mem')
    intro same
    have here : a' = a := congrArg Extent.offset same
    subst here
    exact differ (by rw [ledger.once k k' a' _ _ one two])
  · intro e
    rw [all]
    constructor
    · rintro ⟨k, lvl, mine, size⟩
      obtain ⟨c, node, found, held, rfl⟩ := owned_iff.mp mine
      exact ⟨k, c, node, found, held, size⟩
    · rintro ⟨k, c, node, found, held, size⟩
      exact ⟨k, node.level, owned_iff.mpr ⟨c, node, found, held, rfl⟩, size⟩

theorem nodes_housed_recycled : ∃ (L : NodeLayout) (s : SlabAllocator Unit)
    (lists : UnorderedMap Nat (SkipList Nat)), s.heap.length = 2 ∧ Housed L s lists := by
  obtain ⟨L, s, lists, two, runs⟩ := runs_recycled
  exact ⟨L, s, lists, two, nodes_housed runs⟩

end

end FastGraph.ListCall
