import FastGraph.Kv.Ttl
import FastGraph.Misc.Positions

/-!
# The expiry heap is a map from keys to deadlines

Between calls the index gives the exact position of every key and the deadlines are in
heap order. The swaps of the two sifts rearrange entries and keep the index exact; the
order argument is that of `BinaryHeap`, the one about the index that of `Positions`.
-/

namespace FastGraph.TTLManager
open BinaryHeap Positions

/-- The index gives the position of each key, every entry records its own, and no key is
stored twice. -/
structure Indexed (t : TTLManager) : Prop where
  find : ∀ k i, t.index.find k = some i ↔ i < t.heap.size ∧ (t.entry i).key = k
  heapIdx : ∀ i, i < t.heap.size → (t.entry i).heapIdx = i

/-- The deadlines by position. -/
def deadlineAt (t : TTLManager) (i : Nat) : Int := (t.entry i).expiresAt

/-- The invariant between calls. -/
structure WellFormed (t : TTLManager) : Prop where
  indexed : Indexed t
  ordered : HeapOrdered t.heap.size t.deadlineAt

/-- `k` has the deadline `d`. -/
def Holds (t : TTLManager) (k : Bytes) (d : Int) : Prop :=
  ∃ i, i < t.heap.size ∧ (t.entry i).key = k ∧ (t.entry i).expiresAt = d

/-- `t'` has the entries of `t`, perhaps in other positions. -/
structure Rearranged (t t' : TTLManager) : Prop where
  indexed : Indexed t'
  size : t'.heap.size = t.heap.size
  holds : ∀ k d, Holds t' k d ↔ Holds t k d

section
variable {t t' t'' t₁ : TTLManager} {k key : Bytes} {d now : Int} {a b i n idx : Nat}

/-- The keys by position. -/
def keyAt (t : TTLManager) (i : Nat) : Bytes := (t.entry i).key

theorem Indexed.located (ix : Indexed t) : Locates t.heap.size t.keyAt t.index.find := ix.find

theorem holds_iff : Holds t k d ↔ Contains t.heap.size t.keyAt t.deadlineAt k d := Iff.rfl

theorem Indexed.unique (ix : Indexed t) {d d' : Int} (one : Holds t k d) (two : Holds t k d') :
    d = d' := by
  obtain ⟨i, hi, ki, rfl⟩ := one
  obtain ⟨j, hj, kj, rfl⟩ := two
  rw [ix.located.inj hi hj (ki.trans kj.symm)]

/-- `get_expiry` reads the deadline through the index. -/
theorem Indexed.getExpiry_eq (ix : Indexed t) (held : Holds t k d) : t.getExpiry k = d := by
  obtain ⟨i, hi, rfl, rfl⟩ := held
  simp [getExpiry, (ix.find _ i).mpr ⟨hi, rfl⟩]

theorem Indexed.find_none (ix : Indexed t) (absent : ∀ d, ¬ Holds t k d) :
    t.index.find k = none := by
  rw [Option.eq_none_iff_forall_ne_some]
  intro i found
  obtain ⟨hi, key⟩ := (ix.find k i).mp found
  exact absent _ ⟨i, hi, key, rfl⟩

theorem Indexed.getExpiry_none (ix : Indexed t) (absent : ∀ d, ¬ Holds t k d) :
    t.getExpiry k = -1 := by
  simp [getExpiry, ix.find_none absent]

theorem Rearranged.trans (first : Rearranged t t') (second : Rearranged t' t'') :
    Rearranged t t'' :=
  ⟨second.indexed, second.size.trans first.size,
    fun k d => (second.holds k d).trans (first.holds k d)⟩

theorem Indexed.rearranged (ix : Indexed t) : Rearranged t t := ⟨ix, rfl, fun _ _ => Iff.rfl⟩

/-! ### Swaps -/

theorem entry_set (heap : Array TTLEntry) (index : UnorderedMap Bytes Nat) (i j : Nat)
    (e : TTLEntry) (bound : i < heap.size) :
    entry ⟨heap.setIfInBounds i e, index⟩ j = if j = i then e else entry ⟨heap, index⟩ j := by
  unfold entry
  by_cases same : j = i
  · subst same
    simp [bound]
  · simp [Array.getElem?_setIfInBounds_ne (Ne.symm same), same]

theorem entry_pop (heap : Array TTLEntry) (index index' : UnorderedMap Bytes Nat) (j : Nat)
    (bound : j < heap.size - 1) : entry ⟨heap.pop, index⟩ j = entry ⟨heap, index'⟩ j := by
  simp only [entry, Array.getD_eq_getD_getElem?, Array.getElem?_pop, if_pos bound]

theorem size_swapEntries : (t.swapEntries a b).heap.size = t.heap.size := by
  simp [swapEntries]

theorem entry_swapEntries (ha : a < t.heap.size) (hb : b < t.heap.size) (j : Nat) :
    (t.swapEntries a b).entry j =
      if j = b then { t.entry a with heapIdx := b }
      else if j = a then { t.entry b with heapIdx := a } else t.entry j := by
  unfold swapEntries
  rw [entry_set _ _ _ _ _ (by simpa using hb)]
  split
  · rfl
  · rw [entry_set _ _ _ _ _ ha]
    rfl

/-- What is read of an entry, its position apart, changes its place with it. -/
theorem read_swapEntries {β : Type} {f : TTLEntry → β} (blind : ∀ e i, f { e with heapIdx := i } = f e)
    (ha : a < t.heap.size) (hb : b < t.heap.size) :
    (fun j => f ((t.swapEntries a b).entry j)) = swapped (fun j => f (t.entry j)) a b := by
  funext j
  rw [entry_swapEntries ha hb]
  by_cases hjb : j = b
  · subst hjb
    rw [if_pos rfl, swapped_right, blind]
  · by_cases hja : j = a
    · subst hja
      rw [if_neg hjb, if_pos rfl, swapped_left, blind]
    · rw [if_neg hjb, if_neg hja, swapped_other hja hjb]

theorem keyAt_swapEntries (ha : a < t.heap.size) (hb : b < t.heap.size) :
    (t.swapEntries a b).keyAt = swapped t.keyAt a b :=
  read_swapEntries (f := TTLEntry.key) (fun _ _ => rfl) ha hb

theorem deadlineAt_swapEntries (ha : a < t.heap.size) (hb : b < t.heap.size) :
    (t.swapEntries a b).deadlineAt = swapped t.deadlineAt a b :=
  read_swapEntries (f := TTLEntry.expiresAt) (fun _ _ => rfl) ha hb

theorem Indexed.swapEntries (ix : Indexed t) (ha : a < t.heap.size) (hb : b < t.heap.size) :
    Rearranged t (t.swapEntries a b) := by
  have moved : Locates t.heap.size (t.swapEntries a b).keyAt (t.swapEntries a b).index.find := by
    rw [keyAt_swapEntries ha hb]
    refine ix.located.swap ha hb fun k => ?_
    simp only [TTLManager.swapEntries, UnorderedMap.find_set]
    rfl
  refine ⟨⟨?_, ?_⟩, size_swapEntries, ?_⟩
  · rw [size_swapEntries]
    exact moved
  · intro i hi
    rw [entry_swapEntries ha hb]
    split
    · rename_i h
      exact h.symm
    · split
      · rename_i h
        exact h.symm
      · rw [size_swapEntries] at hi
        exact ix.heapIdx i hi
  · intro k d
    rw [holds_iff, size_swapEntries, keyAt_swapEntries ha hb, deadlineAt_swapEntries ha hb]
    exact contains_swapped ha hb

/-! ### Sifts -/

theorem siftUpLoop_rearranged (ix : Indexed t) (hi : i < t.heap.size) (fuel : Nat) :
    Rearranged t (siftUpLoop fuel t i) := by
  induction fuel generalizing t i with
  | zero => exact ix.rearranged
  | succ fuel ih =>
    unfold siftUpLoop
    split
    · exact ix.rearranged
    · dsimp only
      split
      · exact ix.rearranged
      · have moved := ix.swapEntries (a := (i - 1) / 2) (b := i) (by omega) hi
        exact moved.trans (ih moved.indexed (by rw [moved.size]; omega))

theorem siftUpLoop_ordered (hi : i < t.heap.size) {fuel : Nat} (enough : i ≤ fuel)
    (up : UpOrdered t.heap.size t.deadlineAt i) :
    HeapOrdered t.heap.size (siftUpLoop fuel t i).deadlineAt := by
  induction fuel generalizing t i with
  | zero => exact up.finish (Or.inl (by omega))
  | succ fuel ih =>
    unfold siftUpLoop
    split
    · rename_i root
      exact up.finish (Or.inl root)
    · rename_i notRoot
      dsimp only
      split
      · rename_i le
        exact up.finish (Or.inr le)
      · rename_i before
        have pos : 0 < i := by omega
        have moved := up.except.moveUp pos hi (not_le.mp before)
        have deadlines := deadlineAt_swapEntries (t := t) (a := (i - 1) / 2) (b := i) (by omega) hi
        have size : (t.swapEntries ((i - 1) / 2) i).heap.size = t.heap.size := size_swapEntries
        have done := ih (t := t.swapEntries ((i - 1) / 2) i) (i := (i - 1) / 2)
          (by rw [size]; omega) (by omega) (by rw [size, deadlines]; exact moved)
        rw [size] at done
        exact done

/-- `sift_up` at the one position that is out of order leaves at most the children of that
position out of order. -/
theorem siftUp_down (hi : i < t.heap.size) (out : OrderedExcept t.heap.size t.deadlineAt i) :
    DownOrdered t.heap.size (t.siftUp i).deadlineAt i := by
  unfold siftUp
  cases i with
  | zero => exact out.down (Or.inl rfl)
  | succ i =>
    unfold siftUpLoop
    rw [if_neg (by omega)]
    dsimp only
    split
    · rename_i le
      exact out.down (Or.inr le)
    · rename_i before
      have moved := out.moveUp (by omega) hi (not_le.mp before)
      have deadlines := deadlineAt_swapEntries (t := t) (a := (i + 1 - 1) / 2) (b := i + 1)
        (by omega) hi
      have size : (t.swapEntries ((i + 1 - 1) / 2) (i + 1)).heap.size = t.heap.size :=
        size_swapEntries
      have done := siftUpLoop_ordered (t := t.swapEntries ((i + 1 - 1) / 2) (i + 1))
        (i := (i + 1 - 1) / 2) (by rw [size]; omega) (show (i + 1 - 1) / 2 ≤ i by omega)
        (by rw [size, deadlines]; exact moved)
      rw [size] at done
      exact done.down _

/-- `smallest` is the position itself, or its lesser child if that is out of order. -/
theorem smallest_spec (t : TTLManager) (i : Nat) :
    (t.smallest i = i ∧ ∀ c, 0 < c → c < t.heap.size → parent c = i →
        t.deadlineAt i ≤ t.deadlineAt c) ∨
      (0 < t.smallest i ∧ t.smallest i < t.heap.size ∧ parent (t.smallest i) = i ∧
        t.deadlineAt (t.smallest i) < t.deadlineAt i ∧
        ∀ c, 0 < c → c < t.heap.size → parent c = i →
          t.deadlineAt (t.smallest i) ≤ t.deadlineAt c) := by
  have child : ∀ c, 0 < c → parent c = i → c = 2 * i + 1 ∨ c = 2 * i + 2 :=
    fun c pos h => (parent_eq_iff pos).mp h
  have leftChild : parent (2 * i + 1) = i := by unfold parent; omega
  have rightChild : parent (2 * i + 2) = i := by unfold parent; omega
  unfold smallest deadlineAt
  dsimp only
  by_cases left : 2 * i + 1 < t.heap.size ∧ (t.entry (2 * i + 1)).expiresAt < (t.entry i).expiresAt
  · rw [if_pos left]
    by_cases right : 2 * i + 2 < t.heap.size ∧
        (t.entry (2 * i + 2)).expiresAt < (t.entry (2 * i + 1)).expiresAt
    · rw [if_pos right]
      refine Or.inr ⟨by omega, right.1, rightChild, by omega, fun c pos hc h => ?_⟩
      rcases child c pos h with rfl | rfl <;> omega
    · rw [if_neg right]
      refine Or.inr ⟨by omega, left.1, leftChild, by omega, fun c pos hc h => ?_⟩
      rcases child c pos h with rfl | rfl <;> omega
  · rw [if_neg left]
    by_cases right : 2 * i + 2 < t.heap.size ∧
        (t.entry (2 * i + 2)).expiresAt < (t.entry i).expiresAt
    · rw [if_pos right]
      refine Or.inr ⟨by omega, right.1, rightChild, by omega, fun c pos hc h => ?_⟩
      rcases child c pos h with rfl | rfl <;> omega
    · rw [if_neg right]
      refine Or.inl ⟨rfl, fun c pos hc h => ?_⟩
      rcases child c pos h with rfl | rfl <;> omega

theorem siftDownLoop_spec (ix : Indexed t) {fuel : Nat} (enough : t.heap.size ≤ i + fuel)
    (down : DownOrdered t.heap.size t.deadlineAt i) :
    Rearranged t (siftDownLoop fuel t i) ∧
      HeapOrdered t.heap.size (siftDownLoop fuel t i).deadlineAt := by
  induction fuel generalizing t i with
  | zero =>
    refine ⟨ix.rearranged, down.finish fun c pos hc h => ?_⟩
    rw [parent_eq_iff pos] at h
    omega
  | succ fuel ih =>
    unfold siftDownLoop
    split
    · rename_i stop
      refine ⟨ix.rearranged, down.finish ?_⟩
      rcases smallest_spec t i with ⟨-, done⟩ | ⟨pos, -, child, -, -⟩
      · exact done
      · rw [stop] at child pos
        have := parent_lt pos
        omega
    · rename_i move
      rcases smallest_spec t i with ⟨stop, -⟩ | ⟨pos, hs, child, after, lesser⟩
      · exact absurd stop move
      · have less := parent_lt pos
        rw [child] at less
        have moved := ix.swapEntries (a := i) (b := t.smallest i) (by omega) hs
        have deadlines := deadlineAt_swapEntries (t := t) (a := i) (b := t.smallest i) (by omega) hs
        have down' := down.moveDown pos hs child after lesser
        have later := ih moved.indexed (i := t.smallest i) (by rw [moved.size]; omega)
          (by rw [moved.size, deadlines]; exact down')
        rw [moved.size] at later
        exact ⟨moved.trans later.1, later.2⟩

/-- Both sifts at the one position that may be out of order restore the heap. -/
theorem sift_spec (ix : Indexed t) (hi : i < t.heap.size)
    (out : OrderedExcept t.heap.size t.deadlineAt i) :
    Rearranged t ((t.siftUp i).siftDown i) ∧ WellFormed ((t.siftUp i).siftDown i) := by
  have up : Rearranged t (t.siftUp i) := siftUpLoop_rearranged ix hi i
  have down := siftUp_down hi out
  rw [← up.size] at down
  have enough : (t.siftUp i).heap.size ≤ i + ((t.siftUp i).heap.size - i) := by omega
  have both := siftDownLoop_spec up.indexed enough down
  refine ⟨up.trans both.1, both.1.indexed, ?_⟩
  have size : ((t.siftUp i).siftDown i).heap.size = (t.siftUp i).heap.size := both.1.size
  rw [size]
  exact both.2

/-! ### The calls -/

theorem wellFormed_empty : WellFormed empty where
  indexed :=
    { find := by intro k i; simp [empty]
      heapIdx := by intro i hi; simp [empty] at hi }
  ordered := by intro i _ hi; simp [empty] at hi

theorem not_holds_empty : ¬ Holds empty k d := by
  rintro ⟨i, hi, -⟩
  simp [empty] at hi

/-- The deadline at the position of the key is replaced. -/
theorem WellFormed.rearm (wf : WellFormed t) (found : t.index.find key = some idx) (deadline : Int)
    (changed : (⟨t.heap.setIfInBounds idx { t.entry idx with expiresAt := deadline },
      t.index⟩ : TTLManager) = t₁) :
    WellFormed ((t₁.siftUp idx).siftDown idx) ∧
      ∀ k d, Holds ((t₁.siftUp idx).siftDown idx) k d ↔
        if k = key then d = deadline else Holds t k d := by
  obtain ⟨hidx, here⟩ := (wf.indexed.find key idx).mp found
  have size : t₁.heap.size = t.heap.size := by rw [← changed]; simp
  have entries : ∀ j, t₁.entry j =
      if j = idx then { t.entry idx with expiresAt := deadline } else t.entry j := by
    intro j
    rw [← changed, entry_set _ _ _ _ _ hidx]
  have keys : t₁.keyAt = t.keyAt := by
    funext j
    unfold keyAt
    rw [entries]
    split
    · rename_i h
      rw [h]
    · rfl
  have deadlines : ∀ j, t₁.deadlineAt j = if j = idx then deadline else t.deadlineAt j := by
    intro j
    unfold deadlineAt
    rw [entries]
    split <;> rfl
  have located : Locates t₁.heap.size t₁.keyAt t₁.index.find := by
    rw [size, keys, ← changed]
    exact wf.indexed.located
  have indexed : Indexed t₁ := by
    refine ⟨located, ?_⟩
    intro i hi
    rw [size] at hi
    rw [entries]
    split
    · rename_i h
      rw [h]
      exact wf.indexed.heapIdx idx hidx
    · exact wf.indexed.heapIdx i hi
  have out : OrderedExcept t₁.heap.size t₁.deadlineAt idx := by
    rw [size]
    exact wf.ordered.change fun i _ hne => (deadlines i).trans (if_neg hne)
  obtain ⟨moved, wf'⟩ := sift_spec indexed (by rw [size]; exact hidx) out
  refine ⟨wf', fun k d => ?_⟩
  rw [moved.holds, holds_iff, size, keys, wf.indexed.located.contains_write hidx deadline deadlines,
    keyAt, here]
  rfl

/-- An entry is put behind the others. -/
theorem WellFormed.push (wf : WellFormed t) (found : t.index.find key = none) (deadline : Int)
    (changed : (⟨t.heap.push ⟨deadline, key, t.heap.size⟩,
      t.index.set key t.heap.size⟩ : TTLManager) = t₁) :
    WellFormed (t₁.siftUp t.heap.size) ∧
      ∀ k d, Holds (t₁.siftUp t.heap.size) k d ↔
        if k = key then d = deadline else Holds t k d := by
  have size : t₁.heap.size = t.heap.size + 1 := by rw [← changed]; simp
  have entries : ∀ j, j < t.heap.size → t₁.entry j = t.entry j := by
    intro j hj
    rw [← changed]
    simp only [entry, Array.getD_eq_getD_getElem?, Array.getElem?_push, if_neg hj.ne]
  have behind : t₁.entry t.heap.size = ⟨deadline, key, t.heap.size⟩ := by
    rw [← changed]
    simp [entry]
  have keys : ∀ j, j < t.heap.size → t₁.keyAt j = t.keyAt j :=
    fun j hj => congrArg TTLEntry.key (entries j hj)
  have deadlines : ∀ j, j < t.heap.size → t₁.deadlineAt j = t.deadlineAt j :=
    fun j hj => congrArg TTLEntry.expiresAt (entries j hj)
  have located : Locates t₁.heap.size t₁.keyAt t₁.index.find := by
    rw [size]
    refine wf.indexed.located.push found keys (congrArg TTLEntry.key behind) fun k => ?_
    rw [← changed, UnorderedMap.find_set]
  have indexed : Indexed t₁ := by
    refine ⟨located, ?_⟩
    intro i hi
    rcases Nat.lt_succ_iff_lt_or_eq.mp (size ▸ hi) with less | rfl
    · rw [entries i less]
      exact wf.indexed.heapIdx i less
    · rw [behind]
  have up : UpOrdered t₁.heap.size t₁.deadlineAt t.heap.size := by
    rw [size]
    exact wf.ordered.push deadlines
  have last : t.heap.size < t₁.heap.size := by omega
  have moved := siftUpLoop_rearranged indexed last t.heap.size
  have ordered := siftUpLoop_ordered last le_rfl up
  rw [← moved.size] at ordered
  refine ⟨⟨moved.indexed, ordered⟩, fun k d => ?_⟩
  unfold siftUp
  rw [moved.holds, holds_iff, size, contains_succ, Contains.congr keys deadlines, ← holds_iff, keyAt,
    deadlineAt, behind]
  by_cases same : k = key
  · have absent : ¬ Holds t k d := by
      intro ⟨i, hi, own, _⟩
      exact wf.indexed.located.ne_of_none found hi (own.trans same)
    rw [if_pos same, or_iff_right absent, same, eq_self_iff_true, true_and, eq_comm]
  · rw [if_neg same, or_iff_left fun both => same both.1.symm]

/-- `set_expiry` gives the key the new deadline and keeps all others. -/
theorem setExpiry_spec (wf : WellFormed t) (key : Bytes) (ttlMs now : Int) :
    WellFormed (t.setExpiry key ttlMs now) ∧ ∀ k d, Holds (t.setExpiry key ttlMs now) k d ↔
      if k = key then d = toInt64 (now + ttlMs) else Holds t k d := by
  unfold setExpiry
  cases found : t.index.find key with
  | some idx => exact wf.rearm found _ rfl
  | none => exact wf.push found _ rfl

/-- The last entry is taken off. -/
theorem WellFormed.dropLast (wf : WellFormed t) (count : t.heap.size = n + 1)
    (own : t.keyAt n = key) (changed : (⟨t.heap.pop, t.index.erase key⟩ : TTLManager) = t₁) :
    WellFormed t₁ ∧ (∀ k d, Holds t₁ k d ↔ k ≠ key ∧ Holds t k d) ∧ t₁.heap.size = n := by
  have located := wf.indexed.located
  have ordered := wf.ordered
  rw [count] at located ordered
  simp only [holds_iff, count]
  have size : t₁.heap.size = n := by rw [← changed]; simp [count]
  have entries : ∀ j, j < n → t₁.entry j = t.entry j := by
    intro j hj
    rw [← changed]
    exact entry_pop t.heap _ t.index j (by omega)
  have keys : ∀ j, j < n → t₁.keyAt j = t.keyAt j :=
    fun j hj => congrArg TTLEntry.key (entries j hj)
  have deadlines : ∀ j, j < n → t₁.deadlineAt j = t.deadlineAt j :=
    fun j hj => congrArg TTLEntry.expiresAt (entries j hj)
  have located₁ : Locates n t₁.keyAt t₁.index.find := by
    refine (located.pop fun k => ?_).congr keys
    rw [← changed, UnorderedMap.find_erase, own]
  rw [size]
  refine ⟨⟨⟨?_, ?_⟩, ?_⟩, ?_, rfl⟩
  · rw [size]
    exact located₁
  · intro i hi
    rw [size] at hi
    rw [entries i hi]
    exact wf.indexed.heapIdx i (by omega)
  · rw [size]
    exact ordered.shrink.congr deadlines
  · intro k d
    rw [Contains.congr keys deadlines, located.contains_pop, own]

/-- The last entry fills the position of the key. -/
theorem WellFormed.fill (wf : WellFormed t) (count : t.heap.size = n + 1) (hidx : idx < n)
    (here : t.keyAt idx = key)
    (changed : (⟨(t.heap.setIfInBounds idx { t.entry n with heapIdx := idx }).pop,
      (t.index.erase key).set (t.entry n).key idx⟩ : TTLManager) = t₁) :
    WellFormed ((t₁.siftUp idx).siftDown idx) ∧
      (∀ k d, Holds ((t₁.siftUp idx).siftDown idx) k d ↔ k ≠ key ∧ Holds t k d) ∧
      ((t₁.siftUp idx).siftDown idx).heap.size = n := by
  have located := wf.indexed.located
  have ordered := wf.ordered
  rw [count] at located ordered
  simp only [holds_iff, count]
  have size : t₁.heap.size = n := by rw [← changed]; simp [count]
  have entries : ∀ j, j < n → t₁.entry j =
      if j = idx then { t.entry n with heapIdx := idx } else t.entry j := by
    intro j hj
    rw [← changed, ← entry_set t.heap t.index idx j _ (by omega)]
    exact entry_pop _ _ t.index j (by rw [Array.size_setIfInBounds]; omega)
  -- The key and the deadline are read past the changed `heapIdx`.
  have read {β : Type} (f : TTLEntry → β) (blind : ∀ e i, f { e with heapIdx := i } = f e) (j : Nat)
      (hj : j < n) : f (t₁.entry j) = swapped (fun j => f (t.entry j)) idx n j := by
    rw [entries j hj]
    split
    · rename_i same
      rw [same, swapped_left]
      exact blind _ _
    · rename_i other
      exact (swapped_other (p := fun j => f (t.entry j)) other hj.ne).symm
  have keys : ∀ j, j < n → t₁.keyAt j = swapped t.keyAt idx n j :=
    read TTLEntry.key fun _ _ => rfl
  have deadlines : ∀ j, j < n → t₁.deadlineAt j = swapped t.deadlineAt idx n j :=
    read TTLEntry.expiresAt fun _ _ => rfl
  have located₁ : Locates n t₁.keyAt t₁.index.find := by
    refine (located.remove hidx fun k => ?_).congr keys
    rw [← changed, UnorderedMap.find_set, UnorderedMap.find_erase, ← here]
    rfl
  have indexed : Indexed t₁ := by
    refine ⟨by rw [size]; exact located₁, ?_⟩
    intro i hi
    rw [size] at hi
    rw [entries i hi]
    split
    · rename_i h
      exact h.symm
    · exact wf.indexed.heapIdx i (by omega)
  have out : OrderedExcept t₁.heap.size t₁.deadlineAt idx := by
    rw [size]
    exact ordered.shrink.change fun i hi hne => (deadlines i hi).trans (swapped_other hne hi.ne)
  obtain ⟨moved, wf'⟩ := sift_spec indexed (by rw [size]; exact hidx) out
  refine ⟨wf', fun k d => ?_, moved.size.trans size⟩
  rw [← holds_iff, moved.holds, holds_iff, size, Contains.congr keys deadlines,
    located.contains_remove hidx, here]

/-- `remove_expiry` forgets the deadline of the key and keeps all others. -/
theorem removeExpiry_spec (wf : WellFormed t) (key : Bytes) :
    WellFormed (t.removeExpiry key) ∧
      (∀ k d, Holds (t.removeExpiry key) k d ↔ k ≠ key ∧ Holds t k d) ∧
      (t.removeExpiry key).heap.size =
        if (t.index.find key).isSome then t.heap.size - 1 else t.heap.size := by
  unfold removeExpiry
  cases found : t.index.find key with
  | none =>
    refine ⟨wf, fun k d => ⟨fun held => ⟨?_, held⟩, fun h => h.2⟩, rfl⟩
    rintro rfl
    obtain ⟨i, hi, own, -⟩ := held
    exact wf.indexed.located.ne_of_none found hi own
  | some idx =>
    obtain ⟨hidx, here⟩ := (wf.indexed.find key idx).mp found
    obtain ⟨n, count⟩ : ∃ n, t.heap.size = n + 1 := ⟨t.heap.size - 1, by omega⟩
    simp only [count, Nat.add_sub_cancel, Option.isSome_some, if_true]
    by_cases isLast : idx = n
    · rw [if_neg (not_not.mpr isLast)]
      exact wf.dropLast count (isLast ▸ here) rfl
    · rw [if_pos isLast]
      exact wf.fill count (by omega) here rfl

/-- `k'` does not have an earlier deadline than `k`. -/
def NoEarlier (t : TTLManager) (k k' : Bytes) : Prop := ∀ d d', Holds t k d → Holds t k' d' → d ≤ d'

/-- The root has a least deadline. -/
theorem WellFormed.root_le (wf : WellFormed t) (held : Holds t k d) : (t.entry 0).expiresAt ≤ d := by
  obtain ⟨i, hi, -, rfl⟩ := held
  exact wf.ordered.root_le hi

/-- The eviction loop takes out every deadline that has been reached, and no other, the earliest
first. -/
theorem evictLoop_spec (wf : WellFormed t) {fuel : Nat} (enough : t.heap.size ≤ fuel)
    (expired : List Bytes) :
    ∃ t' more, evictLoop now fuel t expired = (t', expired ++ more) ∧ WellFormed t' ∧
      (∀ k d, Holds t' k d ↔ Holds t k d ∧ now < d) ∧
      (∀ k, k ∈ more ↔ ∃ d, Holds t k d ∧ d ≤ now) ∧ more.Nodup ∧ more.Pairwise (NoEarlier t) := by
  induction fuel generalizing t expired with
  | zero =>
    have nothing : ∀ k d, ¬ Holds t k d := by
      rintro k d ⟨i, hi, -⟩
      omega
    exact ⟨t, [], by simp [evictLoop], wf, by simp [nothing], by simp [nothing], .nil, .nil⟩
  | succ fuel ih =>
    unfold evictLoop
    split
    · rename_i due
      have root : Holds t (t.entry 0).key (t.entry 0).expiresAt := ⟨0, due.1, rfl, rfl⟩
      obtain ⟨wf₁, holds₁, size₁⟩ := removeExpiry_spec wf (t.entry 0).key
      rw [(wf.indexed.find _ 0).mpr ⟨due.1, rfl⟩] at size₁
      simp only [Option.isSome_some, if_true] at size₁
      obtain ⟨t', more, run, wf', holds', evicted, distinct, sorted⟩ :=
        ih wf₁ (by omega) (expired ++ [(t.entry 0).key])
      have others : ∀ k ∈ more, k ≠ (t.entry 0).key := by
        intro k mem
        obtain ⟨d, held, -⟩ := (evicted k).mp mem
        exact ((holds₁ k d).mp held).1
      refine ⟨t', (t.entry 0).key :: more, by simpa using run, wf', ?_, ?_, ?_, ?_⟩
      · intro k d
        rw [holds', holds₁]
        constructor
        · rintro ⟨⟨-, held⟩, later⟩
          exact ⟨held, later⟩
        · rintro ⟨held, later⟩
          refine ⟨⟨?_, held⟩, later⟩
          rintro rfl
          have := wf.indexed.unique held root
          omega
      · intro k
        rw [List.mem_cons, evicted]
        constructor
        · rintro (rfl | ⟨d, held, past⟩)
          · exact ⟨_, root, due.2⟩
          · exact ⟨d, ((holds₁ k d).mp held).2, past⟩
        · rintro ⟨d, held, past⟩
          by_cases same : k = (t.entry 0).key
          · exact Or.inl same
          · exact Or.inr ⟨d, (holds₁ k d).mpr ⟨same, held⟩, past⟩
      · exact List.nodup_cons.mpr ⟨fun mem => others _ mem rfl, distinct⟩
      · refine List.pairwise_cons.mpr ⟨?_, ?_⟩
        · intro k _ d d' here there
          rw [wf.indexed.unique here root]
          exact wf.root_le there
        · refine sorted.imp_of_mem fun mem mem' le d d' here there => ?_
          exact le d d' ((holds₁ _ d).mpr ⟨others _ mem, here⟩)
            ((holds₁ _ d').mpr ⟨others _ mem', there⟩)
    · rename_i notDue
      have later : ∀ k d, Holds t k d → now < d := by
        intro k d held
        have least := wf.root_le held
        obtain ⟨i, hi, -⟩ := held
        by_contra past
        exact notDue ⟨by omega, by omega⟩
      refine ⟨t, [], by simp, wf, fun k d => ⟨fun held => ⟨held, later k d held⟩, fun h => h.1⟩, ?_,
        .nil, .nil⟩
      intro k
      simp only [List.not_mem_nil, false_iff, not_exists, not_and, not_le]
      exact later k

/-- `evict_expired` returns the keys whose deadline has been reached and forgets them. -/
theorem evictExpired_spec (wf : WellFormed t) (now : Int) :
    WellFormed (t.evictExpired now).1 ∧
      (∀ k d, Holds (t.evictExpired now).1 k d ↔ Holds t k d ∧ now < d) ∧
      ∀ k, k ∈ (t.evictExpired now).2 ↔ ∃ d, Holds t k d ∧ d ≤ now := by
  obtain ⟨t', more, run, wf', holds', evicted, -⟩ := evictLoop_spec wf (le_refl t.heap.size) []
  rw [evictExpired, run]
  exact ⟨wf', holds', by simpa using evicted⟩

/-- It returns each of them once, the earliest first. -/
theorem evictExpired_order (wf : WellFormed t) (now : Int) :
    (t.evictExpired now).2.Nodup ∧ (t.evictExpired now).2.Pairwise (NoEarlier t) := by
  obtain ⟨t', more, run, -, -, -, distinct, sorted⟩ := evictLoop_spec wf (le_refl t.heap.size) []
  rw [evictExpired, run]
  exact ⟨distinct, sorted⟩

end

end FastGraph.TTLManager
