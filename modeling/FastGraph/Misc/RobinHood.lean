import FastGraph.Misc.Bytes

/-!
# Robin Hood tables

Open addressing on a ring of `n` slots where every occupied slot records how far its item
lies from the item's home slot. A table is in Robin Hood order when an item that is away
from home is preceded by an occupied slot that is at most one step nearer to its own
home. The order is what allows a lookup to stop early; placing an item in a free slot,
displacing an item that is nearer home, and shifting items back over a hole all keep it.
Items, keys and home functions are arbitrary.
-/

namespace FastGraph.RobinHood

variable {α κ : Type}

/-- An occupied slot: an item and its distance from its home slot. -/
structure Cell (α : Type) where
  dib : Nat
  item : α

/-- The slots of a ring, of which only those below its size count. -/
abbrev Table (α : Type) := Nat → Option (Cell α)

/-- The slot after `i` on a ring of `n` slots. -/
def next (n i : Nat) : Nat := (i + 1) % n

theorem next_lt {n i : Nat} (hi : i < n) : next n i < n := Nat.mod_lt _ (by omega)

theorem next_inj {n i j : Nat} (hi : i < n) (hj : j < n) (h : next n i = next n j) : i = j := by
  unfold next at h
  by_cases hi' : i + 1 = n <;> by_cases hj' : j + 1 = n
  · omega
  · rw [hi', Nat.mod_self, Nat.mod_eq_of_lt (by omega)] at h
    omega
  · rw [hj', Nat.mod_self, Nat.mod_eq_of_lt (by omega)] at h
    omega
  · rw [Nat.mod_eq_of_lt (by omega), Nat.mod_eq_of_lt (by omega)] at h
    omega

theorem next_mod (n a : Nat) : next n (a % n) = (a + 1) % n := by
  unfold next
  exact Nat.mod_add_mod a n 1

/-- Robin Hood order. -/
structure Ordered (n : Nat) (home : α → Nat) (T : Table α) : Prop where
  position : ∀ i c, i < n → T i = some c → (home c.item + c.dib) % n = i
  chain : ∀ i c, i < n → T i = some c → 0 < c.dib →
    ∃ j c', j < n ∧ next n j = i ∧ T j = some c' ∧ c.dib ≤ c'.dib + 1

/-- An item that has come `d` slots from home may be put down there: it is at home, or the
slot before is occupied and at most one step nearer to its home. -/
def Reached (n : Nat) (home : α → Nat) (T : Table α) (x : α) (d : Nat) : Prop :=
  d = 0 ∨ ∃ j c, j < n ∧ next n j = (home x + d) % n ∧ T j = some c ∧ d ≤ c.dib + 1

/-- `x` is in one of the slots other than `hole`. -/
def HasExcept (n : Nat) (T : Table α) (hole : Nat) (x : α) : Prop :=
  ∃ i c, i < n ∧ i ≠ hole ∧ T i = some c ∧ c.item = x

/-- `x` is in one of the slots. -/
def Has (n : Nat) (T : Table α) (x : α) : Prop := ∃ i c, i < n ∧ T i = some c ∧ c.item = x

/-- No two slots other than `hole` hold items of one key. -/
def DistinctExcept (n : Nat) (key : α → κ) (T : Table α) (hole : Nat) : Prop :=
  ∀ i j c c', i < n → j < n → i ≠ hole → j ≠ hole → T i = some c → T j = some c' →
    key c.item = key c'.item → i = j

/-- No two slots hold items of one key. -/
def Distinct (n : Nat) (key : α → κ) (T : Table α) : Prop :=
  ∀ i j c c', i < n → j < n → T i = some c → T j = some c' → key c.item = key c'.item → i = j

/-- The number of occupied slots. -/
def load (n : Nat) (T : Table α) : Nat := ((Finset.range n).filter fun i => (T i).isSome).card

section
variable {n : Nat} {home : α → Nat} {key : α → κ} {T : Table α} {i d : Nat} {x : α} {c : Cell α}

/-! ### Order -/

/-- Every slot from the home of an item to the item is occupied, and as far from home. -/
theorem Ordered.path (ordered : Ordered n home T) (hi : i < n) (at_i : T i = some c)
    {t : Nat} (ht : t ≤ c.dib) :
    ∃ c', T ((home c.item + t) % n) = some c' ∧ t ≤ c'.dib := by
  have npos : 0 < n := by omega
  obtain ⟨k, hk⟩ : ∃ k, t + k = c.dib := ⟨c.dib - t, by omega⟩
  clear ht
  induction k generalizing t with
  | zero =>
    have position := ordered.position i c hi at_i
    rw [Nat.add_zero] at hk
    exact ⟨c, by rw [hk, position, at_i], by omega⟩
  | succ k ih =>
    obtain ⟨c', occupied, far⟩ := ih (t := t + 1) (by omega)
    obtain ⟨j, c'', hj, before, at_j, near⟩ :=
      ordered.chain _ c' (Nat.mod_lt _ npos) occupied (by omega)
    have here : j = (home c.item + t) % n := by
      apply next_inj hj (Nat.mod_lt _ npos)
      rw [before, next_mod, Nat.add_assoc]
    exact ⟨c'', by rw [← here, at_j], by omega⟩

/-- A table with a free slot holds every item less than a turn from home. -/
theorem Ordered.dib_lt (ordered : Ordered n home T) (hi : i < n) (at_i : T i = some c)
    {free : Nat} (hfree : free < n) (empty : T free = none) : c.dib < n := by
  by_contra far
  obtain ⟨t, ht, here⟩ : ∃ t, t < n ∧ (home c.item + t) % n = free := by
    refine ⟨(free + (n - home c.item % n)) % n, Nat.mod_lt _ (by omega), ?_⟩
    have hm : home c.item % n < n := Nat.mod_lt _ (by omega)
    have split : home c.item = n * (home c.item / n) + home c.item % n :=
      (Nat.div_add_mod _ _).symm
    rw [Nat.add_mod_mod]
    rw [show home c.item + (free + (n - home c.item % n)) =
      free + n * (home c.item / n + 1) by rw [Nat.mul_add, Nat.mul_one]; omega]
    rw [Nat.add_mul_mod_self_left, Nat.mod_eq_of_lt hfree]
  obtain ⟨c', occupied, _⟩ := ordered.path hi at_i (t := t) (by omega)
  rw [here, empty] at occupied
  cases occupied

theorem ordered_empty : Ordered n home (fun _ => none) where
  position := by intro i c _ h; cases h
  chain := by intro i c _ h; cases h

/-- An item goes into a free slot that it has reached. -/
theorem Ordered.place (ordered : Ordered n home T) (reached : Reached n home T x d)
    (here : (home x + d) % n = i) (free : T i = none) :
    Ordered n home (Function.update T i (some ⟨d, x⟩)) where
  position := by
    intro k c hk at_k
    by_cases hki : k = i
    · subst hki
      rw [Function.update_self] at at_k
      cases at_k
      exact here
    · rw [Function.update_of_ne hki] at at_k
      exact ordered.position k c hk at_k
  chain := by
    have kept : ∀ j c', T j = some c' → Function.update T i (some ⟨d, x⟩) j = some c' := by
      intro j c' at_j
      have hji : j ≠ i := by rintro rfl; rw [free] at at_j; cases at_j
      rw [Function.update_of_ne hji, at_j]
    intro k c hk at_k away
    by_cases hki : k = i
    · subst hki
      rw [Function.update_self] at at_k
      cases at_k
      rcases reached with rfl | ⟨j, c', hj, before, at_j, near⟩
      · simp at away
      · exact ⟨j, c', hj, by rw [before, here], kept j c' at_j, near⟩
    · rw [Function.update_of_ne hki] at at_k
      obtain ⟨j, c', hj, before, at_j, near⟩ := ordered.chain k c hk at_k away
      exact ⟨j, c', hj, before, kept j c' at_j, near⟩

/-- An item takes the slot of one that is no farther from home. -/
theorem Ordered.displace (ordered : Ordered n home T) (reached : Reached n home T x d)
    (here : (home x + d) % n = i) (occupied : T i = some c) (nearer : c.dib ≤ d) :
    Ordered n home (Function.update T i (some ⟨d, x⟩)) where
  position := by
    intro k c' hk at_k
    by_cases hki : k = i
    · subst hki
      rw [Function.update_self] at at_k
      cases at_k
      exact here
    · rw [Function.update_of_ne hki] at at_k
      exact ordered.position k c' hk at_k
  chain := by
    -- no slot is nearer home than before, so every chain still holds
    have kept : ∀ j c', T j = some c' →
        ∃ c'', Function.update T i (some ⟨d, x⟩) j = some c'' ∧ c'.dib ≤ c''.dib := by
      intro j c' at_j
      by_cases hji : j = i
      · subst hji
        rw [occupied] at at_j
        cases at_j
        exact ⟨⟨d, x⟩, Function.update_self _ _ _, nearer⟩
      · exact ⟨c', by rw [Function.update_of_ne hji, at_j], le_rfl⟩
    intro k c' hk at_k away
    by_cases hki : k = i
    · subst hki
      rw [Function.update_self] at at_k
      cases at_k
      rcases reached with rfl | ⟨j, c'', hj, before, at_j, near⟩
      · simp at away
      · obtain ⟨c₃, at_j', le⟩ := kept j c'' at_j
        exact ⟨j, c₃, hj, by rw [before, here], at_j', by dsimp only at near ⊢; omega⟩
    · rw [Function.update_of_ne hki] at at_k
      obtain ⟨j, c'', hj, before, at_j, near⟩ := ordered.chain k c' hk at_k away
      obtain ⟨c₃, at_j', le⟩ := kept j c'' at_j
      exact ⟨j, c₃, hj, before, at_j', by omega⟩

/-- An item has reached the slot it is in. -/
theorem Ordered.reached_self (ordered : Ordered n home T) (hi : i < n) (occupied : T i = some c) :
    Reached n home T c.item c.dib := by
  rcases Nat.eq_zero_or_pos c.dib with zero | away
  · exact Or.inl zero
  · obtain ⟨j, c', hj, before, at_j, near⟩ := ordered.chain i c hi occupied away
    exact Or.inr ⟨j, c', hj, by rw [before, ordered.position i c hi occupied], at_j, near⟩

/-- The displaced item has reached the next slot. -/
theorem Ordered.reached_displaced (ordered : Ordered n home T) (hi : i < n)
    (occupied : T i = some c) (nearer : c.dib ≤ d) :
    Reached n home (Function.update T i (some ⟨d, x⟩)) c.item (c.dib + 1) := by
  refine Or.inr ⟨i, ⟨d, x⟩, hi, ?_, Function.update_self _ _ _, by dsimp only; omega⟩
  rw [← ordered.position i c hi occupied, next_mod, Nat.add_assoc]

/-- An item that finds its slot taken by one no nearer home has reached the next slot. -/
theorem reached_next (hi : i < n) (here : (home x + d) % n = i) (occupied : T i = some c)
    (far : d ≤ c.dib) : Reached n home T x (d + 1) := by
  refine Or.inr ⟨i, c, hi, ?_, occupied, by omega⟩
  rw [← here, next_mod, Nat.add_assoc]

/-- The item after a hole, if it is away from home, moves back over the hole. -/
theorem Ordered.shift (ordered : Ordered n home T) (hi : i < n) {hole : Cell α}
    (at_i : T i = some hole) (after : T (next n i) = some c) (away : 0 < c.dib) :
    Ordered n home (Function.update T i (some ⟨c.dib - 1, c.item⟩)) where
  position := by
    intro k c' hk at_k
    by_cases hki : k = i
    · subst hki
      rw [Function.update_self] at at_k
      cases at_k
      have later := ordered.position _ c (next_lt hi) after
      apply next_inj (Nat.mod_lt _ (by omega)) hi
      rw [next_mod, ← later]
      congr 1
      dsimp only
      omega
    · rw [Function.update_of_ne hki] at at_k
      exact ordered.position k c' hk at_k
  chain := by
    have step : c.dib ≤ hole.dib + 1 := by
      obtain ⟨j, c', hj, before, at_j, near⟩ := ordered.chain _ c (next_lt hi) after away
      rw [next_inj hj hi before, at_i] at at_j
      cases at_j
      exact near
    intro k c' hk at_k away'
    by_cases hki : k = i
    · subst hki
      rw [Function.update_self] at at_k
      cases at_k
      dsimp only at away' ⊢
      obtain ⟨j, c', hj, before, at_j, near⟩ := ordered.chain k hole hk at_i (by omega)
      by_cases hjk : j = k
      · exact ⟨j, ⟨c.dib - 1, c.item⟩, hj, before, by rw [hjk, Function.update_self],
          by dsimp only; omega⟩
      · exact ⟨j, c', hj, before, by rw [Function.update_of_ne hjk, at_j], by omega⟩
    · rw [Function.update_of_ne hki] at at_k
      obtain ⟨j, c'', hj, before, at_j, near⟩ := ordered.chain k c' hk at_k away'
      by_cases hji : j = i
      · subst hji
        rw [before, at_k] at after
        cases after
        exact ⟨j, ⟨c.dib - 1, c.item⟩, hj, before, Function.update_self _ _ _,
          by dsimp only; omega⟩
      · exact ⟨j, c'', hj, before, by rw [Function.update_of_ne hji, at_j], near⟩

/-- A hole is cleared where the slot after it is free or holds an item at home. -/
theorem Ordered.clear (ordered : Ordered n home T) (hi : i < n)
    (after : ∀ c, T (next n i) = some c → c.dib = 0) :
    Ordered n home (Function.update T i none) where
  position := by
    intro k c hk at_k
    by_cases hki : k = i
    · subst hki
      rw [Function.update_self] at at_k
      cases at_k
    · rw [Function.update_of_ne hki] at at_k
      exact ordered.position k c hk at_k
  chain := by
    intro k c hk at_k away
    by_cases hki : k = i
    · subst hki
      rw [Function.update_self] at at_k
      cases at_k
    · rw [Function.update_of_ne hki] at at_k
      obtain ⟨j, c', hj, before, at_j, near⟩ := ordered.chain k c hk at_k away
      have hji : j ≠ i := by
        rintro rfl
        have := after c (by rw [before, at_k])
        omega
      exact ⟨j, c', hj, before, by rw [Function.update_of_ne hji, at_j], near⟩

/-! ### Contents -/

theorem has_iff_except : Has n T x ↔ (i < n ∧ ∃ c, T i = some c ∧ c.item = x) ∨ HasExcept n T i x := by
  constructor
  · rintro ⟨j, c, hj, at_j, same⟩
    by_cases hji : j = i
    · subst hji
      exact Or.inl ⟨hj, c, at_j, same⟩
    · exact Or.inr ⟨j, c, hj, hji, at_j, same⟩
  · rintro (⟨hi, c, at_i, same⟩ | ⟨j, c, hj, -, at_j, same⟩)
    · exact ⟨i, c, hi, at_i, same⟩
    · exact ⟨j, c, hj, at_j, same⟩

theorem hasExcept_update (o : Option (Cell α)) :
    HasExcept n (Function.update T i o) i x ↔ HasExcept n T i x := by
  unfold HasExcept
  constructor <;> rintro ⟨j, c, hj, hji, at_j, same⟩ <;>
    refine ⟨j, c, hj, hji, ?_, same⟩ <;> simpa [Function.update_of_ne hji] using at_j

theorem has_update_some (hi : i < n) :
    Has n (Function.update T i (some c)) x ↔ c.item = x ∨ HasExcept n T i x := by
  rw [has_iff_except (i := i), hasExcept_update]
  simp [hi]

theorem has_update_none (hi : i < n) :
    Has n (Function.update T i none) x ↔ HasExcept n T i x := by
  rw [has_iff_except (i := i), hasExcept_update]
  simp [hi]

theorem has_of_free (free : T i = none) : Has n T x ↔ HasExcept n T i x := by
  rw [has_iff_except (i := i)]
  simp [free]

theorem has_of_occupied (hi : i < n) (occupied : T i = some c) :
    Has n T x ↔ c.item = x ∨ HasExcept n T i x := by
  rw [has_iff_except (i := i)]
  simp [hi, occupied]

/-- The items outside the hole, after one of them moved back over it. -/
theorem hasExcept_shift (hi : i < n) (gap : next n i ≠ i) (after : T (next n i) = some c) :
    HasExcept n (Function.update T i (some ⟨c.dib - 1, c.item⟩)) (next n i) x ↔
      HasExcept n T i x := by
  constructor
  · rintro ⟨j, c', hj, hjn, at_j, same⟩
    by_cases hji : j = i
    · subst hji
      rw [Function.update_self] at at_j
      cases at_j
      exact ⟨next n j, c, next_lt hi, gap, after, same⟩
    · rw [Function.update_of_ne hji] at at_j
      exact ⟨j, c', hj, hji, at_j, same⟩
  · rintro ⟨j, c', hj, hji, at_j, same⟩
    by_cases hjn : j = next n i
    · subst hjn
      rw [after] at at_j
      cases at_j
      exact ⟨i, ⟨c.dib - 1, c.item⟩, hi, gap.symm, Function.update_self _ _ _, same⟩
    · exact ⟨j, c', hj, hjn, by rw [Function.update_of_ne hji, at_j], same⟩

theorem Distinct.except (distinct : Distinct n key T) (hole : Nat) :
    DistinctExcept n key T hole :=
  fun i j c c' hi hj _ _ at_i at_j same => distinct i j c c' hi hj at_i at_j same

/-- An item with a new key joins the table, in a free slot or in the place of another. -/
theorem DistinctExcept.update_some (distinct : DistinctExcept n key T i)
    (fresh : ∀ y, HasExcept n T i y → key y ≠ key c.item) :
    Distinct n key (Function.update T i (some c)) := by
  intro j k cj ck hj hk at_j at_k same
  by_cases hji : j = i <;> by_cases hki : k = i
  · rw [hji, hki]
  · subst hji
    rw [Function.update_self] at at_j
    rw [Function.update_of_ne hki] at at_k
    cases at_j
    exact absurd same.symm (fresh _ ⟨k, ck, hk, hki, at_k, rfl⟩)
  · subst hki
    rw [Function.update_self] at at_k
    rw [Function.update_of_ne hji] at at_j
    cases at_k
    exact absurd same (fresh _ ⟨j, cj, hj, hji, at_j, rfl⟩)
  · rw [Function.update_of_ne hji] at at_j
    rw [Function.update_of_ne hki] at at_k
    exact distinct j k cj ck hj hk hji hki at_j at_k same

theorem DistinctExcept.update_none (distinct : DistinctExcept n key T i) :
    Distinct n key (Function.update T i none) := by
  intro j k cj ck hj hk at_j at_k same
  have hji : j ≠ i := by rintro rfl; simp at at_j
  have hki : k ≠ i := by rintro rfl; simp at at_k
  rw [Function.update_of_ne hji] at at_j
  rw [Function.update_of_ne hki] at at_k
  exact distinct j k cj ck hj hk hji hki at_j at_k same

/-- Moving an item back over the hole keeps the keys outside the hole apart. -/
theorem DistinctExcept.shift (distinct : DistinctExcept n key T i) (hi : i < n)
    (gap : next n i ≠ i) (after : T (next n i) = some c) :
    DistinctExcept n key (Function.update T i (some ⟨c.dib - 1, c.item⟩)) (next n i) := by
  -- the slot an item had before the move
  have origin : ∀ j c', j < n → j ≠ next n i →
      Function.update T i (some ⟨c.dib - 1, c.item⟩) j = some c' →
      ∃ j' c'', j' < n ∧ j' ≠ i ∧ T j' = some c'' ∧ c''.item = c'.item ∧
        (j' = if j = i then next n i else j) := by
    intro j c' hj hjn at_j
    by_cases hji : j = i
    · subst hji
      rw [Function.update_self] at at_j
      cases at_j
      exact ⟨next n j, c, next_lt hi, gap, after, rfl, by simp⟩
    · rw [Function.update_of_ne hji] at at_j
      exact ⟨j, c', hj, hji, at_j, rfl, by simp [hji]⟩
  intro j k cj ck hj hk hjn hkn at_j at_k same
  obtain ⟨j', cj', hj', hji', at_j', itemj, origj⟩ := origin j cj hj hjn at_j
  obtain ⟨k', ck', hk', hki', at_k', itemk, origk⟩ := origin k ck hk hkn at_k
  have one := distinct j' k' cj' ck' hj' hk' hji' hki' at_j' at_k' (by rw [itemj, itemk, same])
  rw [origj, origk] at one
  split at one <;> split at one <;> omega

/-- The one item with a key. -/
theorem Distinct.has_unique (distinct : Distinct n key T) {y : α} (hx : Has n T x)
    (hy : Has n T y) (same : key x = key y) : x = y := by
  obtain ⟨i, c, hi, at_i, rfl⟩ := hx
  obtain ⟨j, c', hj, at_j, rfl⟩ := hy
  have one := distinct i j c c' hi hj at_i at_j same
  subst one
  rw [at_i] at at_j
  cases at_j
  rfl

/-! ### Load -/

theorem load_update_some (hi : i < n) (free : T i = none) :
    load n (Function.update T i (some c)) = load n T + 1 := by
  unfold load
  have grown : (Finset.range n).filter (fun k => (Function.update T i (some c) k).isSome) =
      insert i ((Finset.range n).filter fun k => (T k).isSome) := by
    ext k
    simp only [Finset.mem_filter, Finset.mem_range, Finset.mem_insert]
    by_cases hki : k = i
    · subst hki
      simp [hi]
    · simp [hki]
  rw [grown, Finset.card_insert_of_notMem (by simp [free])]

theorem load_update_occupied (occupied : (T i).isSome) :
    load n (Function.update T i (some c)) = load n T := by
  unfold load
  congr 1
  ext k
  by_cases hki : k = i
  · subst hki
    simp [occupied]
  · simp [hki]

theorem load_update_none (hi : i < n) (occupied : (T i).isSome) :
    load n (Function.update T i none) + 1 = load n T := by
  unfold load
  have shrunk : (Finset.range n).filter (fun k => (Function.update T i none k).isSome) =
      ((Finset.range n).filter fun k => (T k).isSome).erase i := by
    ext k
    simp only [Finset.mem_filter, Finset.mem_range, Finset.mem_erase]
    by_cases hki : k = i
    · subst hki
      simp
    · simp [hki]
  rw [shrunk]
  exact Finset.card_erase_add_one (by simp [hi, occupied])

theorem load_empty : load n (fun _ => none : Table α) = 0 := by simp [load]

/-- A table that is not full has a free slot. -/
theorem exists_free (room : load n T < n) : ∃ i, i < n ∧ T i = none := by
  by_contra full
  have all : (Finset.range n).filter (fun k => (T k).isSome) = Finset.range n := by
    apply Finset.filter_true_of_mem
    intro k hk
    apply Option.isSome_iff_ne_none.mpr
    intro free
    exact full ⟨k, Finset.mem_range.mp hk, free⟩
  unfold load at room
  rw [all, Finset.card_range] at room
  exact Nat.lt_irrefl n room

/-! ### Walking the ring -/

/-- How many steps it takes from `i` to `j`. -/
def distance (n i j : Nat) : Nat := (j + (n - i)) % n

theorem distance_lt (hi : i < n) (j : Nat) : distance n i j < n := Nat.mod_lt _ (by omega)

theorem distance_eq_zero {j : Nat} (hi : i < n) (hj : j < n) : distance n i j = 0 ↔ i = j := by
  unfold distance
  by_cases h : i ≤ j
  · rw [show j + (n - i) = (j - i) + n by omega, Nat.add_mod_right,
      Nat.mod_eq_of_lt (by omega)]
    omega
  · rw [Nat.mod_eq_of_lt (by omega)]
    omega

/-- Each step towards a slot brings it nearer. -/
theorem distance_next {j : Nat} (hi : i < n) (hj : j < n) (ne : i ≠ j) :
    distance n (next n i) j + 1 = distance n i j := by
  unfold distance next
  by_cases wrap : i + 1 = n
  · rw [wrap, Nat.mod_self, Nat.sub_zero, Nat.add_mod_right, Nat.mod_eq_of_lt hj,
      show n - i = 1 by omega, Nat.mod_eq_of_lt (by omega)]
  · rw [Nat.mod_eq_of_lt (show i + 1 < n by omega)]
    by_cases h : i < j
    · rw [show j + (n - (i + 1)) = (j - (i + 1)) + n by omega, Nat.add_mod_right,
        Nat.mod_eq_of_lt (by omega), show j + (n - i) = (j - i) + n by omega, Nat.add_mod_right,
        Nat.mod_eq_of_lt (by omega)]
      omega
    · rw [Nat.mod_eq_of_lt (by omega), Nat.mod_eq_of_lt (by omega)]
      omega

/-- An item less than a turn from home is as far from there as its slot says. -/
theorem Ordered.dib_eq_distance (ordered : Ordered n home T) (hi : i < n) (at_i : T i = some c)
    (near : c.dib < n) : c.dib = distance n (home c.item % n) i := by
  have position := ordered.position i c hi at_i
  have home_lt : home c.item % n < n := Nat.mod_lt _ (by omega)
  rw [← Nat.mod_add_mod] at position
  generalize home c.item % n = h at position home_lt ⊢
  unfold distance
  by_cases wrap : h + c.dib < n
  · rw [Nat.mod_eq_of_lt wrap] at position
    rw [show i + (n - h) = c.dib + n by omega, Nat.add_mod_right, Nat.mod_eq_of_lt near]
  · rw [Nat.mod_eq_sub_mod (by omega), Nat.mod_eq_of_lt (by omega)] at position
    rw [show i + (n - h) = c.dib by omega, Nat.mod_eq_of_lt near]

end

end FastGraph.RobinHood
