import FastGraph.Memory.PoolAllocator
import FastGraph.Misc.Extents
import FastGraph.Misc.Threads
import FastGraph.Misc.Vector

/-!
# Slots of a pool

Every slot that has been carved from a block is on the free list or has been handed out and not
given back, and is so once: the free list and the live slots together are the carved slots in
some order. A pool is followed together with the list of its live slots.
-/

namespace FastGraph.PoolAllocator

variable {T : Type} {L : PoolLayout} {malloc : Nat → Option Nat} {p p' : PoolAllocator T}
  {free live : List Nat} {ptr block : Nat}

/-! ### Slots -/

/-- `malloc` returns blocks that are apart from each other. -/
def Fresh (L : PoolLayout) (malloc : Nat → Option Nat) : Prop :=
  ∀ i j a b, i ≠ j → malloc i = some a → malloc j = some b →
    (⟨a, L.count * L.sizeofSlot⟩ : Extent).Apart ⟨b, L.count * L.sizeofSlot⟩

/-- The slots of a block. -/
def slotsOf (L : PoolLayout) (block : Nat) : List Nat := (List.range L.count).map (L.slotAt block)

/-- The slots that have been carved from the blocks of the pool. -/
def carved (L : PoolLayout) (p : PoolAllocator T) : List Nat := p.blocks.flatMap (slotsOf L)

/-- The link that a free slot holds. -/
def linkAt (memory : UnorderedMap Nat (Slot T)) (a : Nat) : Option (Option Nat) :=
  match memory.find a with
  | some (.next p) => some p
  | _ => none

theorem sizeofSlot_pos (L : PoolLayout) : 0 < L.sizeofSlot := by
  have := L.large
  omega

theorem slotAt_inj {i j : Nat} (same : L.slotAt block i = L.slotAt block j) : i = j :=
  Nat.eq_of_mul_eq_mul_right (sizeofSlot_pos L) (Nat.add_left_cancel same)

theorem mem_slotsOf {a : Nat} : a ∈ slotsOf L block ↔ ∃ i < L.count, L.slotAt block i = a := by
  simp [slotsOf]

theorem nodup_slotsOf (L : PoolLayout) (block : Nat) : (slotsOf L block).Nodup :=
  (List.nodup_map_iff_inj_on List.nodup_range).mpr fun _ _ _ _ same => slotAt_inj same

/-- A slot lies within its block. -/
theorem slot_within {a : Nat} (mem : a ∈ slotsOf L block) :
    block ≤ a ∧ a + L.sizeofSlot ≤ block + L.count * L.sizeofSlot := by
  obtain ⟨i, inside, rfl⟩ := mem_slotsOf.mp mem
  have room : (i + 1) * L.sizeofSlot ≤ L.count * L.sizeofSlot := Nat.mul_le_mul_right _ inside
  rw [Nat.add_one_mul] at room
  unfold PoolLayout.slotAt
  omega

/-- Two slots of a block have no byte in common. -/
theorem slots_apart {a b : Nat} (mem_a : a ∈ slotsOf L block) (mem_b : b ∈ slotsOf L block)
    (differ : a ≠ b) : (⟨a, L.sizeofSlot⟩ : Extent).Apart ⟨b, L.sizeofSlot⟩ := by
  obtain ⟨i, -, rfl⟩ := mem_slotsOf.mp mem_a
  obtain ⟨j, -, rfl⟩ := mem_slotsOf.mp mem_b
  intro _ _
  unfold PoolLayout.slotAt Extent.stop
  dsimp only
  rcases Nat.lt_trichotomy i j with less | same | more
  · have room : (i + 1) * L.sizeofSlot ≤ j * L.sizeofSlot := Nat.mul_le_mul_right _ less
    rw [Nat.add_one_mul] at room
    omega
  · rw [same] at differ
    exact absurd rfl differ
  · have room : (j + 1) * L.sizeofSlot ≤ i * L.sizeofSlot := Nat.mul_le_mul_right _ more
    rw [Nat.add_one_mul] at room
    omega

/-- Slots of blocks that are apart have no byte in common. -/
theorem slots_apart_of_blocks {block' a b : Nat}
    (apart : (⟨block, L.count * L.sizeofSlot⟩ : Extent).Apart ⟨block', L.count * L.sizeofSlot⟩)
    (mem_a : a ∈ slotsOf L block) (mem_b : b ∈ slotsOf L block') :
    (⟨a, L.sizeofSlot⟩ : Extent).Apart ⟨b, L.sizeofSlot⟩ := by
  have in_a := slot_within mem_a
  have in_b := slot_within mem_b
  have pos := sizeofSlot_pos L
  have split := apart (by dsimp only; omega) (by dsimp only; omega)
  intro _ _
  unfold Extent.stop at *
  dsimp only at *
  omega

theorem not_apart_self (a : Nat) : ¬ (⟨a, L.sizeofSlot⟩ : Extent).Apart ⟨a, L.sizeofSlot⟩ := by
  intro apart
  have pos := sizeofSlot_pos L
  have := apart pos pos
  unfold Extent.stop at this
  dsimp only at this
  omega

/-- The blocks of a pool are what `malloc` has returned, in order. -/
def Obtained (malloc : Nat → Option Nat) (p : PoolAllocator T) : Prop :=
  ∀ i block, p.blocks[i]? = some block → malloc i = some block

/-- Two carved slots have no byte in common. -/
theorem carved_apart (fresh : Fresh L malloc) (obtained : Obtained malloc p) {a b : Nat}
    (mem_a : a ∈ carved L p) (mem_b : b ∈ carved L p) (differ : a ≠ b) :
    (⟨a, L.sizeofSlot⟩ : Extent).Apart ⟨b, L.sizeofSlot⟩ := by
  obtain ⟨block, in_a, slot_a⟩ := List.mem_flatMap.mp mem_a
  obtain ⟨block', in_b, slot_b⟩ := List.mem_flatMap.mp mem_b
  obtain ⟨i, at_i⟩ := List.mem_iff_getElem?.mp in_a
  obtain ⟨j, at_j⟩ := List.mem_iff_getElem?.mp in_b
  by_cases same : i = j
  · subst same
    obtain rfl := Option.some.inj (at_i.symm.trans at_j)
    exact slots_apart slot_a slot_b differ
  · exact slots_apart_of_blocks (fresh i j _ _ same (obtained i _ at_i) (obtained j _ at_j))
      slot_a slot_b

theorem nodup_carved (fresh : Fresh L malloc) (obtained : Obtained malloc p) :
    (carved L p).Nodup := by
  unfold carved
  rw [List.nodup_flatMap]
  refine ⟨fun block _ => nodup_slotsOf L block, ?_⟩
  rw [List.pairwise_iff_getElem]
  intro i j hi hj less a mem_i mem_j
  refine not_apart_self a (slots_apart_of_blocks (fresh i j _ _ less.ne ?_ ?_) mem_i mem_j)
  · exact obtained i _ (List.getElem?_eq_getElem hi)
  · exact obtained j _ (List.getElem?_eq_getElem hj)

/-! ### Carving -/

section
variable {memory : UnorderedMap Nat (Slot T)} {freeList : Option Nat}

theorem carveLoop_succ (n : Nat) : carveLoop L block (n + 1) memory =
    (carveLoop L block n memory).set (L.slotAt block n) (.next (some (L.slotAt block (n + 1)))) := by
  unfold carveLoop
  rw [List.range_succ, List.foldl_append, List.foldl_cons, List.foldl_nil]

theorem find_carveLoop {n i : Nat} (less : i < n) :
    (carveLoop L block n memory).find (L.slotAt block i) =
      some (.next (some (L.slotAt block (i + 1)))) := by
  induction n with
  | zero => omega
  | succ n ih =>
    rw [carveLoop_succ, UnorderedMap.find_set]
    by_cases last : i = n
    · rw [last, if_pos rfl]
    · rw [if_neg fun same => last (slotAt_inj same), ih (by omega)]

theorem find_carveLoop_of_ne {n a : Nat} (other : ∀ i < n, L.slotAt block i ≠ a) :
    (carveLoop L block n memory).find a = memory.find a := by
  induction n with
  | zero => rfl
  | succ n ih =>
    rw [carveLoop_succ, UnorderedMap.find_set, if_neg (other n (by omega)).symm, ih]
    intro i less
    exact other i (by omega)

/-- Each slot of the new block is linked to the one after it, and the last to the old list. -/
theorem find_carve {i : Nat} (inside : i < L.count) :
    (carve L block freeList memory).find (L.slotAt block i) =
      some (.next ((slotsOf L block)[i + 1]?.or freeList)) := by
  unfold carve
  rw [UnorderedMap.find_set]
  by_cases last : i = L.count - 1
  · rw [if_pos (by rw [last]), List.getElem?_eq_none (by simp [slotsOf]; omega), Option.none_or]
  · rw [if_neg fun same => last (slotAt_inj same), find_carveLoop (by omega),
      List.getElem?_eq_getElem (by simp [slotsOf]; omega), Option.some_or]
    simp [slotsOf]

/-- What lies outside the new block is left alone. -/
theorem find_carve_of_notMem {a : Nat} (carves : 0 < L.count) (outside : a ∉ slotsOf L block) :
    (carve L block freeList memory).find a = memory.find a := by
  have other (i : Nat) (inside : i < L.count) : L.slotAt block i ≠ a :=
    fun same => outside (mem_slotsOf.mpr ⟨i, inside, same⟩)
  unfold carve
  rw [UnorderedMap.find_set, if_neg (other _ (by omega)).symm, find_carveLoop_of_ne]
  intro i less
  exact other i (by omega)

end

/-! ### The free list and the live slots -/

/-- The pool while the slots of `live` are handed out: the free list and they are the carved
slots. -/
structure Kept (L : PoolLayout) (malloc : Nat → Option Nat) (p : PoolAllocator T)
    (free live : List Nat) : Prop where
  carves : 0 < L.count
  obtained : Obtained malloc p
  threaded : Threaded (linkAt p.memory) p.freeList free
  shared : (free ++ live).Perm (carved L p)

theorem Kept.nodup (fresh : Fresh L malloc) (kept : Kept L malloc p free live) :
    (free ++ live).Nodup :=
  kept.shared.nodup_iff.mpr (nodup_carved fresh kept.obtained)

/-- A slot that is not on the free list may be written. -/
theorem Kept.threaded_set (kept : Kept L malloc p free live) (other : ptr ∉ free) (s : Slot T) :
    Threaded (linkAt (p.memory.set ptr s)) p.freeList free := by
  apply kept.threaded.congr
  intro a mem
  have differ : a ≠ ptr := fun same => other (same ▸ mem)
  unfold linkAt
  rw [UnorderedMap.find_set, if_neg differ]

theorem obtained_grow (obtained : Obtained malloc p) (got : malloc p.blocks.length = some block)
    (memory : UnorderedMap Nat (Slot T)) (freeList : Option Nat) :
    Obtained malloc ⟨memory, freeList, p.blocks ++ [block]⟩ := by
  intro i block' at_i
  rcases getElem?_concat_cases at_i with ⟨-, old⟩ | ⟨rfl, rfl⟩
  · exact obtained i block' old
  · exact got

theorem Kept.live_carved (kept : Kept L malloc p free live) {a : Nat} (mem : a ∈ live) :
    a ∈ carved L p :=
  kept.shared.mem_iff.mp (List.mem_append_right _ mem)

/-- `grow` puts the slots of a new block in front of the free list, and leaves the slots that
were there alone. -/
theorem Kept.grow (fresh : Fresh L malloc) (kept : Kept L malloc p free live)
    (got : malloc p.blocks.length = some block) :
    ∃ p', p.grow L malloc = some p' ∧ p'.freeList = some block ∧
      (∀ a ∈ carved L p, p'.memory.find a = p.memory.find a) ∧
      Kept L malloc p' (slotsOf L block ++ free) live := by
  have carves := kept.carves
  have obtained := obtained_grow kept.obtained got (carve L block p.freeList p.memory) (some block)
  have nodup := nodup_carved fresh obtained
  unfold carved at nodup
  rw [List.flatMap_append, List.flatMap_singleton, List.nodup_append'] at nodup
  obtain ⟨-, -, disjoint⟩ := nodup
  have frame (a : Nat) (old : a ∈ carved L p) :
      (carve L block p.freeList p.memory).find a = p.memory.find a :=
    find_carve_of_notMem carves (disjoint old)
  refine ⟨⟨carve L block p.freeList p.memory, some block, p.blocks ++ [block]⟩, ?_, rfl, frame,
    carves, obtained, ?_, ?_⟩
  · unfold PoolAllocator.grow
    rw [if_neg carves.ne', got]
  · have head : (slotsOf L block).head?.or p.freeList = some block := by
      obtain ⟨n, count⟩ := Nat.exists_eq_succ_of_ne_zero carves.ne'
      simp [slotsOf, count, List.range_succ_eq_map, PoolLayout.slotAt]
    dsimp only
    rw [← head]
    apply Threaded.splice
    · apply kept.threaded.congr
      intro a mem
      have old : a ∈ carved L p := kept.shared.mem_iff.mp (List.mem_append_left _ mem)
      unfold linkAt
      rw [frame a old]
    · intro i a at_i
      have inside : i < L.count := by
        have := (List.getElem?_eq_some_iff.mp at_i).1
        simpa [slotsOf] using this
      obtain rfl : L.slotAt block i = a := by simpa [slotsOf, inside] using at_i
      unfold linkAt
      rw [find_carve inside]
  · have more : carved L (⟨carve L block p.freeList p.memory, some block, p.blocks ++ [block]⟩ :
        PoolAllocator T) = carved L p ++ slotsOf L block := by
      unfold carved
      rw [List.flatMap_append, List.flatMap_singleton]
    rw [more, List.append_assoc]
    exact (List.perm_append_comm).trans (kept.shared.append_right _)

/-! ### Calls -/

/-- `allocate` takes the first free slot, of a new block if there is none, and leaves what the
live slots hold alone. -/
theorem Kept.allocate (fresh : Fresh L malloc) (kept : Kept L malloc p free live)
    (supplied : p.freeList = none → (malloc p.blocks.length).isSome) :
    ∃ p' ptr free', p.allocate L malloc = some (p', ptr) ∧ ptr ∉ live ∧
      (∀ a ∈ live, p'.memory.find a = p.memory.find a) ∧ Kept L malloc p' free' (ptr :: live) := by
  -- the pool whose first free slot is taken
  obtain ⟨q, slots, slot, ready, head, frame, kept⟩ : ∃ q slots slot,
      (if p.freeList = none then p.grow L malloc else some p) = some q ∧
      q.freeList = some slot ∧ (∀ a ∈ live, q.memory.find a = p.memory.find a) ∧
      Kept L malloc q slots live := by
    cases head : p.freeList with
    | none =>
      obtain ⟨block, got⟩ := Option.isSome_iff_exists.mp (supplied head)
      obtain ⟨q, grown, first, frame, kept'⟩ := kept.grow fresh got
      exact ⟨q, _, block, by rw [if_pos rfl, grown], first,
        fun a mem => frame a (kept.live_carved mem), kept'⟩
    | some slot => exact ⟨p, free, slot, if_neg (by simp), head, fun _ _ => rfl, kept⟩
  have listed := kept.threaded
  rw [head] at listed
  obtain ⟨rest, free', link, rfl, threaded⟩ := listed.uncons
  have held : q.memory.find slot = some (.next rest) := by
    unfold linkAt at link
    split at link
    · rename_i held
      rw [held, Option.some.inj link]
    · cases link
  have notLive : slot ∉ live := by
    intro mem
    exact List.disjoint_of_nodup_append (kept.nodup fresh) List.mem_cons_self mem
  refine ⟨{ q with freeList := rest }, slot, free', ?_, notLive, frame, kept.carves,
    kept.obtained, threaded, List.perm_middle.trans kept.shared⟩
  unfold PoolAllocator.allocate
  rw [ready]
  simp [head, held]

/-- What `allocate` returns is not live. -/
theorem Kept.allocated (fresh : Fresh L malloc) (kept : Kept L malloc p free live)
    (step : p.allocate L malloc = some (p', ptr)) :
    ptr ∉ live ∧ (∀ a ∈ live, p'.memory.find a = p.memory.find a) ∧
      ∃ free', Kept L malloc p' free' (ptr :: live) := by
  have supplied : p.freeList = none → (malloc p.blocks.length).isSome := by
    intro exhausted
    by_contra refused
    simp [PoolAllocator.allocate, PoolAllocator.grow, exhausted,
      Option.not_isSome_iff_eq_none.mp refused] at step
  obtain ⟨q, slot, free', step', notLive, frame, kept'⟩ := kept.allocate fresh supplied
  obtain ⟨rfl, rfl⟩ := Prod.mk.inj (Option.some.inj (step.symm.trans step'))
  exact ⟨notLive, frame, free', kept'⟩

/-- `deallocate` of a live slot puts it in front of the free list. -/
theorem Kept.deallocate (fresh : Fresh L malloc) (kept : Kept L malloc p free live)
    (mem : ptr ∈ live) : Kept L malloc (p.deallocate ptr) (ptr :: free) (live.erase ptr) where
  carves := kept.carves
  obtained := kept.obtained
  threaded := by
    have other : ptr ∉ free :=
      fun free => List.disjoint_of_nodup_append (kept.nodup fresh) free mem
    refine Threaded.cons ?_ (kept.threaded_set other _)
    simp [linkAt, PoolAllocator.deallocate]
  shared := by
    have moved : (ptr :: free ++ live.erase ptr).Perm (free ++ live) :=
      List.perm_middle.symm.trans ((List.perm_cons_erase mem).symm.append_left free)
    exact moved.trans kept.shared

/-- A live slot may be written. -/
theorem Kept.write (fresh : Fresh L malloc) (kept : Kept L malloc p free live) (mem : ptr ∈ live)
    (x : T) : Kept L malloc (p.write ptr x) free live where
  carves := kept.carves
  obtained := kept.obtained
  threaded := by
    apply kept.threaded_set
    exact fun free => List.disjoint_of_nodup_append (kept.nodup fresh) free mem
  shared := kept.shared

/-- A new pool has carved one block, and all of it is free. -/
theorem Kept.construct (fresh : Fresh L malloc)
    (made : (construct L malloc : Option (PoolAllocator T)) = some p) :
    ∃ free, Kept L malloc p free [] := by
  have carves : 0 < L.count := by
    by_contra none
    simp [PoolAllocator.construct, PoolAllocator.grow, Nat.eq_zero_of_not_pos none] at made
  have blank : Kept L malloc (⟨∅, none, []⟩ : PoolAllocator T) [] [] :=
    ⟨carves, by simp [Obtained], Threaded.nil, List.Perm.refl []⟩
  cases got : malloc 0 with
  | none => simp [PoolAllocator.construct, PoolAllocator.grow, got] at made
  | some block =>
    obtain ⟨q, grown, -, -, kept⟩ := blank.grow fresh got
    obtain rfl := Option.some.inj (made.symm.trans grown)
    exact ⟨_, kept⟩

/-! ### Runs -/

/-- What the calls of a client lead to, with the slots that are live then. A client writes to
live slots and gives back live slots. -/
inductive Runs (L : PoolLayout) (malloc : Nat → Option Nat) : PoolAllocator T → List Nat → Prop where
  | constructed {p : PoolAllocator T} (made : construct L malloc = some p) : Runs L malloc p []
  | allocated {p p' : PoolAllocator T} {live : List Nat} {ptr : Nat} (runs : Runs L malloc p live)
      (step : p.allocate L malloc = some (p', ptr)) : Runs L malloc p' (ptr :: live)
  | written {p : PoolAllocator T} {live : List Nat} {ptr : Nat} (runs : Runs L malloc p live)
      (mem : ptr ∈ live) (x : T) : Runs L malloc (p.write ptr x) live
  | deallocated {p : PoolAllocator T} {live : List Nat} {ptr : Nat} (runs : Runs L malloc p live)
      (mem : ptr ∈ live) : Runs L malloc (p.deallocate ptr) (live.erase ptr)

theorem Runs.kept (fresh : Fresh L malloc) (runs : Runs L malloc p live) :
    ∃ free, Kept L malloc p free live := by
  induction runs with
  | constructed made => exact Kept.construct fresh made
  | allocated runs step ih =>
    obtain ⟨free, kept⟩ := ih
    exact (kept.allocated fresh step).2.2
  | written runs mem x ih =>
    obtain ⟨free, kept⟩ := ih
    exact ⟨free, kept.write fresh mem x⟩
  | deallocated runs mem ih =>
    obtain ⟨free, kept⟩ := ih
    exact ⟨_, kept.deallocate fresh mem⟩

/-- What a client relies on while the slots of `live` are handed out to it. -/
structure Sound (L : PoolLayout) (malloc : Nat → Option Nat) (p : PoolAllocator T)
    (live : List Nat) : Prop where
  listed : ∃ free, Threaded (linkAt p.memory) p.freeList free ∧ free.Nodup ∧
    (∀ a ∈ free, a ∉ live) ∧ ∀ a, a ∈ carved L p ↔ a ∈ live ∨ a ∈ free
  once : live.Nodup
  apart : ∀ a ∈ live, ∀ b ∈ live, a ≠ b →
    (⟨a, L.sizeofSlot⟩ : Extent).Apart ⟨b, L.sizeofSlot⟩
  allocates : ∀ p' ptr, p.allocate L malloc = some (p', ptr) → ptr ∉ live
  supplies : (p.freeList = none → (malloc p.blocks.length).isSome) →
    (p.allocate L malloc).isSome

theorem Runs.sound (fresh : Fresh L malloc) (runs : Runs L malloc p live) :
    Sound L malloc p live := by
  obtain ⟨free, kept⟩ := runs.kept fresh
  have nodup := kept.nodup fresh
  have all (a : Nat) : a ∈ carved L p ↔ a ∈ live ∨ a ∈ free := by
    rw [← kept.shared.mem_iff, List.mem_append, or_comm]
  refine ⟨⟨free, kept.threaded, nodup.of_append_left, ?_, all⟩, nodup.of_append_right, ?_, ?_, ?_⟩
  · intro a mem_free mem_live
    exact List.disjoint_of_nodup_append nodup mem_free mem_live
  · intro a mem_a b mem_b
    exact carved_apart fresh kept.obtained ((all a).mpr (Or.inl mem_a))
      ((all b).mpr (Or.inl mem_b))
  · intro p' ptr step
    exact (kept.allocated fresh step).1
  · intro supplied
    obtain ⟨p', ptr, free', step, -⟩ := kept.allocate fresh supplied
    rw [step]
    rfl

end FastGraph.PoolAllocator
