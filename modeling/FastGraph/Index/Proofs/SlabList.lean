import FastGraph.Index.Proofs.Moved
import FastGraph.Memory.Proofs.SlabAllocator

/-!
# Skip lists that share a slab allocator

The live requests of the allocator are the nodes of the lists, each with the size that its level
gives. So a node is given back with the size it was made with, a new node gets an address that no
node of any list has, and every list does what it would do with addresses of its own that are
never used again.
-/

namespace FastGraph.SkipList
open Tower SlabAllocator

variable {S T : Type} {L : NodeLayout} {s s' : SlabAllocator T} {got : Option Nat}
  {heap heap' : UnorderedMap Nat (SkipNode S)} {own rest : Nat → Nat → Prop} {n lvl : Nat}

/-! ### Nodes and requests -/

/-- A node with so many levels is at the address. -/
def owns (heap : UnorderedMap Nat (SkipNode S)) (a lvl : Nat) : Prop := levelAt heap a = some lvl

/-- The live requests are the nodes of a list and those of the rest. -/
structure Books (L : NodeLayout) (s : SlabAllocator T) (own rest : Nat → Nat → Prop) : Prop where
  live : ∃ free live, Kept s free live ∧ ∀ e : Extent, e ∈ live ↔
    ∃ lvl, (own e.offset lvl ∨ rest e.offset lvl) ∧ e.size = L.nodeSize lvl
  once : ∀ a i j, own a i → ¬ rest a j
  small : ∀ a lvl, own a lvl → lvl ≤ skipMaxLevel

theorem nodeSize_le (L : NodeLayout) (small : lvl ≤ skipMaxLevel) : L.nodeSize lvl ≤ 2048 := by
  have most := L.small
  unfold NodeLayout.nodeSize
  omega

/-- A request that is not large does not go back to the C library. -/
theorem heap_deallocate {ptr size : Nat} (small : size ≤ 2048)
    (step : s.deallocate ptr size = some s') : s'.heap = s.heap := by
  cases found : sizeClass size with
  | none =>
    have large := lt_of_sizeClass found 8
    change 2048 < size at large
    omega
  | some cls =>
    simp only [SlabAllocator.deallocate, found] at step
    cases step
    rfl

/-- A block that has just been handed out starts where no other live one does. -/
theorem offset_ne_new {free : Fin 9 → List Nat} {live : List Extent} {e f : Extent}
    (kept : Kept s free (e :: live)) (mem : f ∈ live) : e.offset ≠ f.offset :=
  offset_ne (a := block e) (b := block f) ((List.pairwise_cons.mp kept.live_apart).1 f mem)
    (capacity_pos e.size) (capacity_pos f.size)

theorem nodup_live {free : Fin 9 → List Nat} {live : List Extent} (kept : Kept s free live) :
    live.Nodup := by
  refine kept.live_apart.imp ?_
  rintro e f apart rfl
  exact offset_ne (a := block e) (b := block e) apart (capacity_pos e.size) (capacity_pos e.size) rfl

theorem Books.congr (books : Books L s (owns heap) rest)
    (same : ∀ a, levelAt heap' a = levelAt heap a) : Books L s (owns heap') rest := by
  have equal : owns heap' = owns heap := by
    funext a lvl
    unfold owns
    rw [same]
  rwa [equal]

theorem owns_erase {a : Nat} : owns (heap.erase n) a lvl ↔ a ≠ n ∧ owns heap a lvl := by
  unfold owns levelAt
  rw [UnorderedMap.find_erase]
  split
  · rename_i here
    simp [here]
  · rename_i other
    simp [other]

theorem owns_set {a : Nat} {node : SkipNode S} :
    owns (heap.set n node) a lvl ↔ (a = n ∧ node.level = lvl) ∨ (a ≠ n ∧ owns heap a lvl) := by
  unfold owns levelAt
  rw [UnorderedMap.find_set]
  split
  · rename_i here
    simp [here]
  · rename_i other
    simp [other]

/-- A node of the list is freed. -/
theorem Books.free (books : Books L s (owns heap) rest) {node : SkipNode S}
    (found : heap.find n = some node) :
    ∃ s', freeNode L s heap n = some (s', heap.erase n) ∧
      Books L s' (owns (heap.erase n)) rest ∧ s'.heap = s.heap := by
  obtain ⟨free, live, kept, all⟩ := books.live
  have here : owns heap n node.level := by simp [owns, levelAt, found]
  have mem : (⟨n, L.nodeSize node.level⟩ : Extent) ∈ live :=
    (all _).mpr ⟨node.level, Or.inl here, rfl⟩
  obtain ⟨s', free', step, kept', -, -⟩ := kept.deallocate mem
  refine ⟨s', by simp [freeNode, found, step], ⟨⟨free', _, kept', ?_⟩, ?_, ?_⟩,
    heap_deallocate (nodeSize_le L (books.small n _ here)) step⟩
  · intro e
    rw [(nodup_live kept).mem_erase_iff, all]
    constructor
    · rintro ⟨differ, lvl, ours | others, size⟩
      · refine ⟨lvl, Or.inl (owns_erase.mpr ⟨?_, ours⟩), size⟩
        intro atN
        have same : node.level = lvl := Option.some.inj (here.symm.trans (atN ▸ ours))
        apply differ
        cases e
        simp_all
      · exact ⟨lvl, Or.inr others, size⟩
    · rintro ⟨lvl, ours | others, size⟩
      · obtain ⟨apart, ours⟩ := owns_erase.mp ours
        exact ⟨fun same => apart (congrArg Extent.offset same), lvl, Or.inl ours, size⟩
      · refine ⟨?_, lvl, Or.inr others, size⟩
        rintro rfl
        exact books.once n _ _ here others
  · intro a i j ours
    exact books.once a i j (owns_erase.mp ours).2
  · intro a lvl ours
    exact books.small a lvl (owns_erase.mp ours).2

/-- A node is made: the list has no node at its address, nor has another list. -/
theorem Books.make (books : Books L s (owns heap) rest) (top : lvl ≤ skipMaxLevel)
    (fresh : s.Fresh got (capacity (L.nodeSize lvl))) (score : S) (member : Bytes) :
    (makeNode L s got heap lvl score member = none ∧ got = none) ∨
      ∃ s' n, makeNode L s got heap lvl score member =
          some (s', heap.set n (SkipNode.make lvl score member), n) ∧ heap.find n = none ∧
        Books L s' (owns (heap.set n (SkipNode.make lvl score member))) rest := by
  obtain ⟨free, live, kept, all⟩ := books.live
  obtain ⟨s', ret, step, -, ⟨rfl, refused, -⟩ | ⟨n, free', rfl, -, kept'⟩⟩ := kept.allocate fresh
  · exact Or.inl ⟨by simp [makeNode, step], refused⟩
  · have new (i : Nat) : ¬ (owns heap n i ∨ rest n i) := by
      intro taken
      exact offset_ne_new kept' ((all ⟨n, L.nodeSize i⟩).mpr ⟨i, taken, rfl⟩) rfl
    refine Or.inr ⟨s', n, by simp [makeNode, step], ?_, ⟨free', _, kept', ?_⟩, ?_, ?_⟩
    · by_contra used
      obtain ⟨node, found⟩ := Option.ne_none_iff_exists'.mp used
      exact new node.level (Or.inl (by simp [owns, levelAt, found]))
    · intro e
      rw [List.mem_cons, all]
      constructor
      · rintro (rfl | ⟨i, ours | others, size⟩)
        · exact ⟨lvl, Or.inl (owns_set.mpr (Or.inl ⟨rfl, rfl⟩)), rfl⟩
        · refine ⟨i, Or.inl (owns_set.mpr (Or.inr ⟨?_, ours⟩)), size⟩
          intro atN
          exact new i (Or.inl (atN ▸ ours))
        · exact ⟨i, Or.inr others, size⟩
      · rintro ⟨i, ours | others, size⟩
        · rcases owns_set.mp ours with ⟨atN, rfl⟩ | ⟨-, ours⟩
          · left
            cases e
            simp_all [SkipNode.make]
          · exact Or.inr ⟨i, Or.inl ours, size⟩
        · exact Or.inr ⟨i, Or.inr others, size⟩
    · intro a i j ours others
      rcases owns_set.mp ours with ⟨rfl, -⟩ | ⟨-, ours⟩
      · exact new j (Or.inr others)
      · exact books.once a i j ours others
    · intro a i ours
      rcases owns_set.mp ours with ⟨-, rfl⟩ | ⟨-, ours⟩
      · exact top
      · exact books.small a i ours

/-! ### Towers and nodes -/

section
variable [Inhabited S] {l : SkipList S} {ts : List (Tower (Item S))}

/-- The nodes of a list are its towers. -/
theorem Shape.tower (shape : Shape l ts) {a : Nat} (used : (l.heap.find a).isSome) :
    ∃ t ∈ headTower l :: ts, t.addr = a := by
  have found : (headTower l :: ts).map addr ⊆ AList.keys l.heap := by
    intro a mem
    obtain ⟨t, inList, rfl⟩ := List.mem_map.mp mem
    obtain ⟨pre, post, cut⟩ := List.append_of_mem inList
    obtain ⟨f, stored, -⟩ := shape.laid pre t post cut
    obtain ⟨node, held, -⟩ := find_of_view stored
    by_contra missing
    rw [(UnorderedMap.find_eq_none_iff _ _).mpr missing] at held
    cases held
  have count : (AList.keys l.heap).length ≤ ((headTower l :: ts).map addr).length := by
    rw [← UnorderedMap.size_eq_length_keys, shape.heapSize]
    simp
  have all := (shape.distinct.subperm found).perm_of_length_le count
  have mem : a ∈ AList.keys l.heap := by
    by_contra missing
    rw [(UnorderedMap.find_eq_none_iff _ _).mpr missing] at used
    cases used
  exact List.mem_map.mp (all.mem_iff.mpr mem)

theorem Shape.used (shape : Shape l ts) {t : Tower (Item S)} (mem : t ∈ headTower l :: ts) :
    (l.heap.find t.addr).isSome := by
  obtain ⟨pre, post, cut⟩ := List.append_of_mem mem
  obtain ⟨f, stored, -⟩ := shape.laid pre t post cut
  obtain ⟨node, held, -⟩ := find_of_view stored
  rw [held]
  rfl

/-- No pointer of a list dangles. -/
theorem Shape.closed (shape : Shape l ts) : Closed l.heap := by
  intro a node q found points
  obtain ⟨t, mem, rfl⟩ := shape.tower (by rw [found]; rfl)
  obtain ⟨pre, post, cut⟩ := List.append_of_mem mem
  obtain ⟨f, stored, length, links⟩ := shape.laid pre t post cut
  obtain ⟨node', found', -, -, rfl⟩ := find_of_view stored
  obtain rfl := Option.some.inj (found.symm.trans found')
  obtain ⟨i, inside, here⟩ := List.mem_iff_getElem.mp points
  have whole : t = full t.addr t.item t.height := by
    rcases List.mem_cons.mp mem with rfl | later
    · rfl
    · exact shape.whole t later
  have shown : t.shows i = true := by
    rw [whole]
    simpa [full, ← length] using inside
  have next : nextAt i post = some q := by
    have read := links i shown
    rw [List.getElem?_eq_getElem inside, here] at read
    exact (Option.some.inj read).symm
  obtain ⟨front, x, back, rfl, rfl, -, -⟩ := nextAt_eq_some next
  exact shape.used (by rw [cut]; simp)

theorem Shape.unused (shape : Shape l ts) : l.heap.find l.nextAddr = none :=
  view_eq_none_iff.mp (shape.fresh l.nextAddr le_rfl)

/-- What a search leaves in `update` below the level of the list are nodes. -/
theorem Shape.written_used {pre post : List (Tower (Item S))} {update : Nat → Option Nat}
    (shape : Shape l (pre ++ post))
    (written : ∀ j, j < l.level → update j = some (lastAt j (headTower l) pre).addr) :
    ∀ j < l.level, ∀ u ∈ update j, (l.heap.find u).isSome := by
  intro j below u mem
  have last : lastAt j (headTower l) pre ∈ headTower l :: pre := by
    obtain ⟨front, back, split, -⟩ := lastAt_split j (headTower l) pre
    rw [split]
    simp
  rw [written j below] at mem
  obtain rfl := Option.some.inj mem
  refine shape.used (List.mem_cons.mpr ?_)
  rcases List.mem_cons.mp last with head | later
  · exact Or.inl head
  · exact Or.inr (List.mem_append_left _ later)

end

/-! ### Calls -/

section
variable [BEq S] [LT S] [DecidableLT S] {ρ : Nat → Nat} {l l' c : SkipList S} {score : S}
  {member : Bytes} {update : Nat → Option Nat} {coins : List Bool}

/-- `remove` on the allocator does what it does without, and gives one node back if it removes
one. -/
theorem Moved.removeOn (moved : Moved ρ l c) (closed : Closed l.heap)
    (books : Books L s (owns c.heap) rest) {done : Bool}
    (ran : l.remove score member = some (l', done)) :
    ∃ s' c', c.removeOn L s score member = some (s', c', done) ∧ Moved ρ l' c' ∧
      Books L s' (owns c'.heap) rest ∧ s'.heap = s.heap := by
  unfold SkipList.remove at ran
  obtain ⟨⟨cur, update⟩, searched, ran⟩ := Option.bind_eq_some_iff.mp ran
  obtain ⟨u, written, ran⟩ := Option.bind_eq_some_iff.mp ran
  obtain ⟨next, read, ran⟩ := Option.bind_eq_some_iff.mp ran
  have searched' := moved.search (fun _ => rfl) searched
  have read' := moved.nodes.forward read
  cases next with
  | none =>
    cases ran
    refine ⟨s, c, ?_, moved, books, rfl⟩
    simp only [Option.map_none] at searched' read'
    simp [SkipList.removeOn, searched', written, read']
  | some target =>
    obtain ⟨node, found, ran⟩ := Option.bind_eq_some_iff.mp ran
    have found' := moved.nodes.find target node found
    have test : isAt score member (node.rename ρ) = isAt score member node := rfl
    split at ran
    · rename_i other
      cases ran
      refine ⟨s, c, ?_, moved, books, rfl⟩
      simp only [Option.map_none, Option.map_some] at searched' read'
      simp only [SkipList.removeOn, searched', written, read', found', test, Option.bind_eq_bind,
        Option.bind_some, Option.map_some]
      rw [if_pos other]
    · rename_i here
      obtain ⟨heap₁, unlinked, ran⟩ := Option.bind_eq_some_iff.mp ran
      obtain ⟨level, shrunk, ran⟩ := Option.bind_eq_some_iff.mp ran
      cases ran
      obtain ⟨heap₁', unlinked', carried, levels, used⟩ :=
        moved.nodes.unlinkLoop closed (by rw [found]; rfl) unlinked
      obtain ⟨node₁, found₁⟩ := Option.isSome_iff_exists.mp used
      obtain ⟨s', freed, books', same⟩ := (books.congr levels).free (carried.find target node₁ found₁)
      have erased : Carried ρ _ _ := carried.erase used
      have shrunk' := erased.shrinkLevel shrunk
      refine ⟨s', { c with
        heap := heap₁'.erase (ρ target), level := level,
        memberScores := c.memberScores.erase member, size := c.size - 1 }, ?_,
        ⟨erased, moved.head, rfl, by rw [moved.size], by rw [moved.scores],
          (moved.uniform.unlinkLoop unlinked').erase⟩, books', same⟩
      simp only [Option.map_none, Option.map_some] at searched' read'
      simp only [SkipList.removeOn, searched', written, read', found', test, Option.bind_eq_bind,
        Option.bind_some, Option.map_some, moved.level, unlinked', freed, moved.head, shrunk']
      rw [if_neg here]

omit [BEq S] [LT S] [DecidableLT S] in
/-- A name that no pointer of the list has is free for a new node. -/
theorem Closed.rename (closed : Closed heap) {a b : Nat} (unused : heap.find a = none)
    {x : Nat} {node : SkipNode S} (found : heap.find x = some node) :
    node.rename (Function.update ρ a b) = node.rename ρ := by
  unfold SkipNode.rename
  congr 1
  apply List.map_congr_left
  intro q mem
  cases q with
  | none => rfl
  | some y =>
    have other : y ≠ a := by
      rintro rfl
      have used := closed x node y found mem
      rw [unused] at used
      cases used
    rw [Option.map_some, Option.map_some, Function.update_of_ne other]

omit [BEq S] [LT S] [DecidableLT S] in
/-- The end of `insert` on the allocator. -/
theorem Moved.insertNewOn [Inhabited S] {pre post : List (Tower (Item S))}
    (moved : Moved ρ l c) (shape : Shape l (pre ++ post))
    (written : ∀ j, j < l.level → update j = some (lastAt j (headTower l) pre).addr)
    (books : Books L s (owns c.heap) rest)
    (fresh : s.Fresh got (capacity (L.nodeSize (randomLevel coins 1))))
    (ran : l.insertNew update coins score member = some l') :
    (c.insertNewOn L s got (fun j => (update j).map ρ) coins score member = none ∧ got = none) ∨
      ∃ s' c' ρ', c.insertNewOn L s got (fun j => (update j).map ρ) coins score member =
          some (s', c') ∧ Moved ρ' l' c' ∧ Books L s' (owns c'.heap) rest := by
  have top := (randomLevel_range coins le_rfl (by decide)).2
  have used := shape.written_used written
  have head : (l.heap.find l.head).isSome := shape.used List.mem_cons_self
  have named (n u : Nat) (inUse : (l.heap.find u).isSome) :
      Function.update ρ l.nextAddr n u = ρ u := by
    apply Function.update_of_ne
    rintro rfl
    rw [shape.unused] at inUse
    cases inUse
  unfold SkipList.insertNew at ran
  unfold SkipList.insertNewOn
  generalize randomLevel coins 1 = lvl at fresh ran top ⊢
  obtain ⟨heap₁, linked, ran⟩ := Option.bind_eq_some_iff.mp ran
  cases ran
  rcases books.make top fresh score member with ⟨refused, exhausted⟩ | ⟨s', n, made, free, books'⟩
  · exact Or.inl ⟨by simp [refused], exhausted⟩
  · have carried : Carried (Function.update ρ l.nextAddr n)
        (l.heap.set l.nextAddr (SkipNode.make lvl score member))
        (c.heap.set n (SkipNode.make lvl score member)) := by
      have others : ∀ x node, l.heap.find x = some node →
          SkipNode.rename (Function.update ρ l.nextAddr n) node = SkipNode.rename ρ node :=
        fun x node found => shape.closed.rename shape.unused found
      have extended := moved.nodes.extend shape.unused free others (SkipNode.make lvl score member)
      simpa [SkipNode.rename, SkipNode.make] using extended
    have same : ∀ j < lvl, ∀ u ∈ (if l.level ≤ j ∧ j < lvl then some l.head else update j),
        (if c.level ≤ j ∧ j < lvl then some c.head else (update j).map ρ) =
          some (Function.update ρ l.nextAddr n u) := by
      intro j below u mem
      rw [moved.level, moved.head]
      split at mem
      · rename_i above
        obtain rfl := Option.some.inj mem
        rw [if_pos above, named n l.head head]
      · rename_i inside
        have low : j < l.level := by omega
        rw [if_neg inside, named n u (used j low u mem), Option.mem_def.mp mem]
        rfl
    obtain ⟨heap₁', linked', carried₁, levels⟩ := carried.linkLoop same linked
    rw [Function.update_self] at linked'
    refine Or.inr ⟨s', { c with
      heap := heap₁', level := if c.level < lvl then lvl else c.level,
      memberScores := c.memberScores.set member score, size := c.size + 1 }, _, ?_,
      ⟨carried₁, ?_, by rw [moved.level], by rw [moved.size], by rw [moved.scores],
        (moved.uniform.set (by simp [SkipNode.make])).linkLoop linked'⟩, books'.congr levels⟩
    · simp [made, linked']
    · exact moved.head.trans (named n l.head head).symm

omit [LT S] [DecidableLT S] in
theorem Carried.presentAt (carried : Carried ρ heap heap') {next : Option Nat} {found : Bool}
    (ran : presentAt heap score member next = some found) :
    SkipList.presentAt heap' score member (next.map ρ) = some found := by
  cases next with
  | none => exact ran
  | some next =>
    obtain ⟨node, held, ran⟩ := Option.bind_eq_some_iff.mp ran
    cases ran
    simp only [Option.map_some, SkipList.presentAt, carried.find next node held,
      Option.bind_eq_bind, Option.bind_some]
    rfl

/-- `insert` on the allocator does what it does without, unless there is no memory. -/
theorem Moved.insertOn [Inhabited S] {ts : List (Tower (Item S))} (moved : Moved ρ l c)
    (shape : Shape l ts) (books : Books L s (owns c.heap) rest)
    (fresh : s.Fresh got (capacity (L.nodeSize (randomLevel coins 1))))
    (ran : l.insert coins score member = some l') :
    (c.insertOn L s got coins score member = none ∧ got = none) ∨
      ∃ s' c' ρ', c.insertOn L s got coins score member = some (s', c') ∧ Moved ρ' l' c' ∧
        Books L s' (owns c'.heap) rest := by
  obtain ⟨pre, post, cur, update, rfl, -, searched, written, u, zero, read⟩ :=
    shape.searchLess score member fun _ => none
  have searched' := moved.search (fun _ => rfl) searched
  have read' := moved.nodes.forward read
  simp only [Option.map_none] at searched'
  unfold SkipList.insert at ran
  unfold SkipList.insertOn
  simp only [searched, zero, read, Option.bind_eq_bind, Option.bind_some] at ran
  obtain ⟨present, test, ran⟩ := Option.bind_eq_some_iff.mp ran
  simp only [searched', zero, read', Option.bind_eq_bind, Option.bind_some, Option.map_some,
    moved.nodes.presentAt test]
  have scored : c.scoreOf member = l.scoreOf member := by
    unfold scoreOf
    rw [moved.scores]
  rw [scored]
  cases present with
  | true =>
    cases ran
    exact Or.inr ⟨s, c, ρ, rfl, moved, books⟩
  | false =>
    rw [if_neg Bool.false_ne_true] at ran ⊢
    cases held : l.scoreOf member with
    | none =>
      rw [held] at ran
      exact moved.insertNewOn shape written books fresh ran
    | some old =>
      rw [held] at ran
      dsimp only at ran ⊢
      by_cases differs : (old != score) = true
      · rw [if_pos differs] at ran ⊢
        obtain ⟨⟨l₁, done⟩, removed, ran⟩ := Option.bind_eq_some_iff.mp ran
        obtain ⟨l₂, ts₂, done', step, shape₁, -⟩ := shape.remove old member
        cases removed.symm.trans step
        obtain ⟨s₁, c₁, removed', moved₁, books₁, same⟩ := moved.removeOn shape.closed books removed
        obtain ⟨pre₁, post₁, cur₁, update₁, rfl, -, searched₁, written₁, -⟩ :=
          shape₁.searchLess score member update
        have searched₁' := moved₁.search (fun _ => rfl) searched₁
        have fresh₁ : s₁.Fresh got (capacity (L.nodeSize (randomLevel coins 1))) := by
          unfold Fresh
          rw [same]
          exact fresh
        simp only [searched₁, Option.bind_some] at ran
        simp only [removed', searched₁', Option.bind_some]
        exact moved₁.insertNewOn shape₁ written₁ books₁ fresh₁ ran
      · rw [if_neg differs] at ran ⊢
        exact moved.insertNewOn shape written books fresh ran

end

end FastGraph.SkipList
