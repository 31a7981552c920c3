import FastGraph.Misc.Bytes

/-!
# Binary heaps

The order of a binary min-heap stored in positions `0 .. n - 1`, over any linear order of
priorities. A heap that is in order except around one position is repaired by moving the
entry there up or down by swaps; each swap moves the disorder to the neighbouring
position, and the lemmas say when it has gone.
-/

namespace FastGraph.BinaryHeap

variable {α : Type} [LinearOrder α]

/-- The position above `i`. -/
def parent (i : Nat) : Nat := (i - 1) / 2

theorem parent_lt {i : Nat} (pos : 0 < i) : parent i < i := by
  unfold parent
  omega

/-- The children of `i` are at `2 * i + 1` and `2 * i + 2`. -/
theorem parent_eq_iff {c i : Nat} (pos : 0 < c) : parent c = i ↔ c = 2 * i + 1 ∨ c = 2 * i + 2 := by
  unfold parent
  omega

/-- Every entry is at or after its parent. -/
def HeapOrdered (n : Nat) (p : Nat → α) : Prop :=
  ∀ i, 0 < i → i < n → p (parent i) ≤ p i

/-- The children of `h` are at or after its parent. -/
def Bridged (n : Nat) (p : Nat → α) (h : Nat) : Prop :=
  0 < h → ∀ c, 0 < c → c < n → parent c = h → p (parent h) ≤ p c

/-- In order except for `h` against its parent. -/
structure UpOrdered (n : Nat) (p : Nat → α) (h : Nat) : Prop where
  order : ∀ i, 0 < i → i < n → i ≠ h → p (parent i) ≤ p i
  bridged : Bridged n p h

/-- In order except for `h` against its children. -/
structure DownOrdered (n : Nat) (p : Nat → α) (h : Nat) : Prop where
  order : ∀ i, 0 < i → i < n → parent i ≠ h → p (parent i) ≤ p i
  bridged : Bridged n p h

/-- In order except for `h` against its neighbours. -/
structure OrderedExcept (n : Nat) (p : Nat → α) (h : Nat) : Prop where
  order : ∀ i, 0 < i → i < n → i ≠ h → parent i ≠ h → p (parent i) ≤ p i
  bridged : Bridged n p h

/-- The priorities after the entries at `a` and `b` have been exchanged. -/
def swapped (p : Nat → α) (a b : Nat) : Nat → α := fun i => p (Equiv.swap a b i)

section
variable {n h a b i : Nat} {p q : Nat → α}

omit [LinearOrder α] in
@[simp] theorem swapped_left : swapped p a b a = p b := by simp [swapped]

omit [LinearOrder α] in
@[simp] theorem swapped_right : swapped p a b b = p a := by simp [swapped]

omit [LinearOrder α] in
theorem swapped_other (ha : i ≠ a) (hb : i ≠ b) : swapped p a b i = p i := by
  simp [swapped, Equiv.swap_apply_of_ne_of_ne ha hb]

/-- The root is a least entry. -/
theorem HeapOrdered.root_le (ordered : HeapOrdered n p) (hi : i < n) : p 0 ≤ p i := by
  induction i using Nat.strongRecOn with
  | ind i ih =>
    rcases Nat.eq_zero_or_pos i with rfl | pos
    · exact le_rfl
    · have less := parent_lt pos
      exact le_trans (ih _ less (by omega)) (ordered i pos hi)

/-- Any change at one position leaves the rest in order. -/
theorem HeapOrdered.change (ordered : HeapOrdered n p) (same : ∀ i, i < n → i ≠ h → q i = p i) :
    OrderedExcept n q h where
  order := by
    intro i pos hi hih hph
    have less := parent_lt pos
    rw [same i hi hih, same (parent i) (by omega) hph]
    exact ordered i pos hi
  bridged := by
    intro hpos c cpos hc child
    have less := parent_lt hpos
    have hch : c ≠ h := by
      rintro rfl
      have := parent_lt cpos
      omega
    have chain := ordered c cpos hc
    have above := ordered h hpos (by have := parent_lt cpos; omega)
    rw [child] at chain
    rw [same c hc hch, same (parent h) (by have := parent_lt cpos; omega) (by omega)]
    exact le_trans above chain

/-- A new last entry can only be out of order with its parent. -/
theorem HeapOrdered.push (ordered : HeapOrdered n p) (same : ∀ i, i < n → q i = p i) :
    UpOrdered (n + 1) q n where
  order := by
    intro i pos hi hin
    have less := parent_lt pos
    rw [same i (by omega), same (parent i) (by omega)]
    exact ordered i pos (by omega)
  bridged := by
    intro _ c cpos hc child
    have := parent_lt cpos
    omega

theorem HeapOrdered.congr (ordered : HeapOrdered n p) (same : ∀ i, i < n → q i = p i) :
    HeapOrdered n q := by
  intro i pos hi
  have less := parent_lt pos
  rw [same i hi, same (parent i) (by omega)]
  exact ordered i pos hi

theorem HeapOrdered.shrink (ordered : HeapOrdered (n + 1) p) : HeapOrdered n p :=
  fun i pos hi => ordered i pos (by omega)

theorem UpOrdered.except (up : UpOrdered n p h) : OrderedExcept n p h :=
  ⟨fun i pos hi hih _ => up.order i pos hi hih, up.bridged⟩

theorem UpOrdered.finish (up : UpOrdered n p h) (done : h = 0 ∨ p (parent h) ≤ p h) :
    HeapOrdered n p := by
  intro i pos hi
  by_cases hih : i = h
  · subst hih
    rcases done with rfl | le
    · omega
    · exact le
  · exact up.order i pos hi hih

/-- An entry before its parent is exchanged with it. -/
theorem OrderedExcept.moveUp (out : OrderedExcept n p h) (pos : 0 < h) (hn : h < n)
    (before : p h < p (parent h)) : UpOrdered n (swapped p (parent h) h) (parent h) where
  order := by
    intro i ipos hi hne
    have less := parent_lt pos
    by_cases hih : i = h
    · subst hih
      rw [swapped_right, swapped_left]
      exact before.le
    · rw [swapped_other hne hih]
      by_cases child : parent i = h
      · rw [child, swapped_right]
        exact out.bridged pos i ipos hi child
      · by_cases sibling : parent i = parent h
        · rw [sibling, swapped_left]
          have order := out.order i ipos hi hih child
          rw [sibling] at order
          exact le_trans before.le order
        · rw [swapped_other sibling child]
          exact out.order i ipos hi hih child
  bridged := by
    intro ppos c cpos hc child
    have less := parent_lt pos
    have less' := parent_lt ppos
    rw [swapped_other (by omega) (by omega)]
    have above := out.order (parent h) ppos (by omega) (by omega) (by omega)
    by_cases hch : c = h
    · subst hch
      rw [swapped_right]
      exact above
    · have hcp : c ≠ parent h := by
        rintro rfl
        omega
      rw [swapped_other hcp hch]
      have order := out.order c cpos hc hch (by omega)
      rw [child] at order
      exact le_trans above order

/-- An entry that need not move up may only be out of order with its children. -/
theorem OrderedExcept.down (out : OrderedExcept n p h) (done : h = 0 ∨ p (parent h) ≤ p h) :
    DownOrdered n p h where
  order := by
    intro i pos hi child
    by_cases hih : i = h
    · subst hih
      rcases done with rfl | le
      · omega
      · exact le
    · exact out.order i pos hi hih child
  bridged := out.bridged

theorem HeapOrdered.down (ordered : HeapOrdered n p) (h : Nat) : DownOrdered n p h where
  order := fun i pos hi _ => ordered i pos hi
  bridged := (ordered.change (fun _ _ _ => rfl)).bridged

theorem DownOrdered.finish (down : DownOrdered n p h)
    (done : ∀ c, 0 < c → c < n → parent c = h → p h ≤ p c) : HeapOrdered n p := by
  intro i pos hi
  by_cases child : parent i = h
  · rw [child]
    exact done i pos hi child
  · exact down.order i pos hi child

/-- An entry after its lesser child is exchanged with it. -/
theorem DownOrdered.moveDown {s : Nat} (down : DownOrdered n p h) (spos : 0 < s) (hs : s < n)
    (child : parent s = h) (after : p s < p h)
    (lesser : ∀ c, 0 < c → c < n → parent c = h → p s ≤ p c) :
    DownOrdered n (swapped p h s) s where
  order := by
    intro i pos hi notChild
    have less := parent_lt spos
    by_cases his : i = s
    · subst his
      rw [child, swapped_left, swapped_right]
      exact after.le
    · by_cases hih : i = h
      · subst hih
        have above := parent_lt pos
        rw [swapped_left, swapped_other (by omega) (by omega)]
        have bridge := down.bridged pos s spos hs child
        exact bridge
      · rw [swapped_other hih his]
        by_cases sibling : parent i = h
        · rw [sibling, swapped_left]
          exact lesser i pos hi sibling
        · rw [swapped_other sibling notChild]
          exact down.order i pos hi sibling
  bridged := by
    intro _ c cpos hc grandchild
    have less := parent_lt spos
    have less' := parent_lt cpos
    rw [child, swapped_left, swapped_other (by omega) (by omega)]
    have order := down.order c cpos hc (by omega)
    rw [grandchild] at order
    exact order

end

end FastGraph.BinaryHeap
