import FastGraph.Memory.SlabAllocator
import FastGraph.Memory.Proofs.PoolAllocator

/-!
# Blocks of the slab allocator

Every block that `malloc` has returned and `free` has not been given is a live block or is on the
free list of its class, and is so once. The allocator is followed together with its client: the
requests that are live, what was written into them, and the largest number of live requests
there has been of each class.
-/

namespace FastGraph.SlabAllocator
open PoolAllocator (linkAt)

variable {T : Type} {s s' : SlabAllocator T} {free : Fin 9 → List Nat} {live : List Extent}
  {size ptr : Nat} {got : Option Nat} {cls : Fin 9} {e : Extent}

/-! ### Classes -/

/-- What is asked of `malloc` for a request that no free block serves. -/
def capacity (size : Nat) : Nat := ((sizeClass size).map kClasses).getD size

/-- The block that serves a request. -/
def block (e : Extent) : Extent := ⟨e.offset, capacity e.size⟩

theorem kClasses_inj {c d : Fin 9} (same : kClasses c = kClasses d) : c = d := by
  revert c d
  decide

theorem le_of_sizeClass (found : sizeClass size = some cls) : size ≤ kClasses cls := by
  unfold sizeClass at found
  simpa using List.find?_some found

theorem lt_of_sizeClass (large : sizeClass size = none) (c : Fin 9) : kClasses c < size := by
  unfold sizeClass at large
  simpa using List.find?_eq_none.mp large c (List.mem_finRange c)

theorem capacity_of_class (found : sizeClass size = some cls) : capacity size = kClasses cls := by
  rw [capacity, found]
  rfl

theorem capacity_of_large (large : sizeClass size = none) : capacity size = size := by
  rw [capacity, large]
  rfl

theorem kClasses_pos (c : Fin 9) : 0 < kClasses c := by
  revert c
  decide

theorem le_capacity (size : Nat) : size ≤ capacity size := by
  cases found : sizeClass size with
  | none => rw [capacity_of_large found]
  | some cls =>
    rw [capacity_of_class found]
    exact le_of_sizeClass found

theorem capacity_pos (size : Nat) : 0 < capacity size := by
  cases found : sizeClass size with
  | none =>
    rw [capacity_of_large found]
    have := lt_of_sizeClass found 0
    omega
  | some cls =>
    rw [capacity_of_class found]
    exact kClasses_pos cls

/-- The size of a block tells the class of the request it serves. -/
theorem capacity_eq_iff : capacity size = kClasses cls ↔ sizeClass size = some cls := by
  constructor
  · intro same
    cases found : sizeClass size with
    | none =>
      rw [capacity_of_large found] at same
      have := lt_of_sizeClass found cls
      omega
    | some c =>
      rw [capacity_of_class found] at same
      rw [kClasses_inj same]
  · exact capacity_of_class

/-! ### Blocks on the free lists -/

/-- The blocks of a class that are on its free list. -/
def freeBlocks (free : Fin 9 → List Nat) (cls : Fin 9) : List Extent :=
  (free cls).map fun p => ⟨p, kClasses cls⟩

/-- The blocks on all free lists. -/
def allFree (free : Fin 9 → List Nat) : List Extent := (List.finRange 9).flatMap (freeBlocks free)

/-- The free list of one class in front of those of the others. -/
theorem allFree_perm (free : Fin 9 → List Nat) (cls : Fin 9) :
    (allFree free).Perm
      (freeBlocks free cls ++ ((List.finRange 9).erase cls).flatMap (freeBlocks free)) := by
  have first := List.perm_cons_erase (List.mem_finRange cls)
  simpa [allFree] using first.flatMap_right (freeBlocks free)

/-- A change of one free list is a change of its blocks only. -/
theorem allFree_update (free : Fin 9 → List Nat) (cls : Fin 9) (l : List Nat) :
    (allFree (Function.update free cls l)).Perm (l.map (fun p => ⟨p, kClasses cls⟩) ++
      ((List.finRange 9).erase cls).flatMap (freeBlocks free)) := by
  have others : ((List.finRange 9).erase cls).flatMap (freeBlocks (Function.update free cls l)) =
      ((List.finRange 9).erase cls).flatMap (freeBlocks free) := by
    apply List.flatMap_congr
    intro c mem
    have differ : c ≠ cls := ((List.nodup_finRange 9).mem_erase_iff.mp mem).1
    unfold freeBlocks
    rw [Function.update_of_ne differ]
  have moved := allFree_perm (Function.update free cls l) cls
  rw [others] at moved
  simpa [freeBlocks] using moved

/-- The blocks of a class on the free lists are those on its own list. -/
theorem countP_allFree (free : Fin 9 → List Nat) (cls : Fin 9) :
    (allFree free).countP (·.size = kClasses cls) = (free cls).length := by
  rw [(allFree_perm free cls).countP_eq, List.countP_append]
  have own : (freeBlocks free cls).countP (·.size = kClasses cls) = (free cls).length := by
    simp [freeBlocks, List.countP_map, Function.comp_def]
  have others : (((List.finRange 9).erase cls).flatMap (freeBlocks free)).countP
      (·.size = kClasses cls) = 0 := by
    rw [List.countP_eq_zero]
    intro b mem
    obtain ⟨c, inOther, inList⟩ := List.mem_flatMap.mp mem
    obtain ⟨p, -, rfl⟩ := List.mem_map.mp inList
    have differ : c ≠ cls := ((List.nodup_finRange 9).mem_erase_iff.mp inOther).1
    simpa using fun same => differ (kClasses_inj same)
  rw [own, others, Nat.add_zero]

/-! ### Live blocks and free blocks -/

/-- The allocator while the requests of `live` have been served and not given back: their blocks
and the blocks on the free lists are what the C library keeps, and they are apart. -/
structure Kept (s : SlabAllocator T) (free : Fin 9 → List Nat) (live : List Extent) : Prop where
  threaded : ∀ c, Threaded (linkAt s.memory) (s.pools c) (free c)
  shared : (live.map block ++ allFree free).Perm s.heap
  apart : s.heap.Pairwise Extent.Apart

/-- What `malloc` may return if it is asked for `size` bytes: a block apart from those it has
returned before and that are not free. -/
def Fresh (s : SlabAllocator T) (got : Option Nat) (size : Nat) : Prop :=
  ∀ p ∈ got, ∀ e ∈ s.heap, (⟨p, size⟩ : Extent).Apart e

theorem Kept.empty : Kept (empty : SlabAllocator T) (fun _ => []) [] where
  threaded := fun _ => Threaded.nil
  shared := by
    have none : allFree (fun _ => []) = [] := by decide
    rw [none]
    exact List.Perm.refl []
  apart := List.Pairwise.nil

theorem Kept.size_pos (kept : Kept s free live) (mem : e ∈ s.heap) : 0 < e.size := by
  rcases List.mem_append.mp (kept.shared.mem_iff.mpr mem) with inLive | inFree
  · obtain ⟨r, -, rfl⟩ := List.mem_map.mp inLive
    exact capacity_pos r.size
  · obtain ⟨c, -, inList⟩ := List.mem_flatMap.mp inFree
    obtain ⟨p, -, rfl⟩ := List.mem_map.mp inList
    exact kClasses_pos c

/-- All blocks are apart, live ones and free ones. -/
theorem Kept.pairwise (kept : Kept s free live) :
    (live.map block ++ allFree free).Pairwise Extent.Apart :=
  (kept.shared.pairwise_iff Extent.Apart.symm).mpr kept.apart

/-- Blocks that are apart and not empty start at different addresses. -/
theorem offset_ne {a b : Extent} (apart : a.Apart b) (pos_a : 0 < a.size) (pos_b : 0 < b.size) :
    a.offset ≠ b.offset := by
  intro same
  have split := apart pos_a pos_b
  unfold Extent.stop at split
  omega

theorem mem_allFree {p : Nat} (mem : p ∈ free cls) : (⟨p, kClasses cls⟩ : Extent) ∈ allFree free :=
  List.mem_flatMap.mpr ⟨cls, List.mem_finRange cls, List.mem_map.mpr ⟨p, mem, rfl⟩⟩

/-- A live block and one on a free list are apart. -/
theorem Kept.apart_free (kept : Kept s free live) (mem : e ∈ live) {p : Nat} (inList : p ∈ free cls) :
    (block e).Apart ⟨p, kClasses cls⟩ :=
  (List.pairwise_append.mp kept.pairwise).2.2 _ (List.mem_map_of_mem mem) _ (mem_allFree inList)

/-- An address within a live block is not that of a free one. -/
theorem Kept.notMem_free (kept : Kept s free live) (mem : e ∈ live) {a : Nat}
    (holds : (block e).Holds a) (c : Fin 9) : a ∉ free c := by
  intro inList
  refine Extent.apart_iff.mp (kept.apart_free mem inList) a holds ⟨le_rfl, ?_⟩
  exact Nat.lt_add_of_pos_right (kClasses_pos c)

/-- An address that is on no free list may be written. -/
theorem Kept.threaded_set (kept : Kept s free live) {a : Nat} (other : ∀ c, a ∉ free c) (x : Slot T)
    (c : Fin 9) : Threaded (linkAt (s.memory.set a x)) (s.pools c) (free c) := by
  apply (kept.threaded c).congr
  intro b mem
  have differ : b ≠ a := fun same => other c (same ▸ mem)
  unfold linkAt
  rw [UnorderedMap.find_set, if_neg differ]

theorem holds_offset (e : Extent) : (block e).Holds e.offset :=
  ⟨le_rfl, Nat.lt_add_of_pos_right (capacity_pos e.size)⟩

/-! ### Calls -/

/-- Where the block at `p` comes from that serves a request: from `malloc`, with the free list of
the class exhausted, or from the front of that list. -/
inductive Taken (free : Fin 9 → List Nat) (size p : Nat) : (Fin 9 → List Nat) → Prop where
  | malloced (exhausted : ∀ c, sizeClass size = some c → free c = []) : Taken free size p free
  | reused {cls : Fin 9} {rest : List Nat} (found : sizeClass size = some cls)
      (list : free cls = p :: rest) : Taken free size p (Function.update free cls rest)

/-- A block from `malloc` serves a request. -/
theorem Kept.malloc (kept : Kept s free live) (fresh : s.Fresh (some ptr) (capacity size)) :
    Kept (s.malloc (some ptr) (capacity size)).1 free (⟨ptr, size⟩ :: live) where
  threaded := kept.threaded
  shared := kept.shared.cons _
  apart := List.pairwise_cons.mpr ⟨fresh ptr rfl, kept.apart⟩

/-- The first block of a free list serves a request. -/
theorem Kept.get (kept : Kept s free live) (found : sizeClass size = some cls)
    (head : s.pools cls = some ptr) (got : Option Nat) :
    ∃ rest s', free cls = ptr :: rest ∧ s.get got cls = some (s', some ptr) ∧
      s'.memory = s.memory ∧ Kept s' (Function.update free cls rest) (⟨ptr, size⟩ :: live) := by
  have threaded := kept.threaded cls
  rw [head] at threaded
  obtain ⟨next, rest, link, list, tail⟩ := threaded.uncons
  have held : s.memory.find ptr = some (.next next) := by
    unfold linkAt at link
    split at link
    · rename_i held
      rw [held, Option.some.inj link]
    · cases link
  refine ⟨rest, { s with pools := Function.update s.pools cls next }, list, ?_, rfl, ?_, ?_,
    kept.apart⟩
  · simp [SlabAllocator.get, head, held]
  · intro c
    by_cases own : c = cls
    · subst own
      dsimp only
      rw [Function.update_self, Function.update_self]
      exact tail
    · simpa [Function.update_of_ne own] using kept.threaded c
  · have before := allFree_perm free cls
    have served : block ⟨ptr, size⟩ = ⟨ptr, kClasses cls⟩ := by rw [block, capacity_of_class found]
    rw [freeBlocks, list, List.map_cons, List.cons_append] at before
    rw [List.map_cons, served]
    refine (((allFree_update free cls rest).append_left _).cons _).trans ?_
    exact List.perm_middle.symm.trans ((before.symm.append_left _).trans kept.shared)

/-- `allocate` returns and writes nothing, and its pointer is that of a block which no live request
has. -/
theorem Kept.allocate (kept : Kept s free live) (fresh : s.Fresh got (capacity size)) :
    ∃ s' ret, s.allocate got size = some (s', ret) ∧ s'.memory = s.memory ∧
      ((ret = none ∧ got = none ∧ s' = s) ∨ ∃ p free', ret = some p ∧ Taken free size p free' ∧
        Kept s' free' (⟨p, size⟩ :: live)) := by
  -- the free list of the class, if there is one, is exhausted or has a first block
  by_cases exhausted : ∀ c, sizeClass size = some c → s.pools c = none
  · have call : s.allocate got size = some (s.malloc got (capacity size)) := by
      cases found : sizeClass size with
      | none => simp [SlabAllocator.allocate, found, capacity_of_large found]
      | some cls =>
        simp [SlabAllocator.allocate, SlabAllocator.get, found, exhausted cls found,
          capacity_of_class found]
    refine ⟨_, _, call, rfl, ?_⟩
    cases got with
    | none => exact Or.inl ⟨rfl, rfl, rfl⟩
    | some p =>
      refine Or.inr ⟨p, free, rfl, .malloced ?_, kept.malloc fresh⟩
      intro c found
      have threaded := kept.threaded c
      rw [exhausted c found] at threaded
      generalize free c = l at threaded
      cases threaded
      rfl
  · push Not at exhausted
    obtain ⟨cls, found, first⟩ := exhausted
    obtain ⟨p, head⟩ := Option.ne_none_iff_exists'.mp first
    obtain ⟨rest, s', list, call, same, kept'⟩ := kept.get found head got
    refine ⟨s', some p, ?_, same, Or.inr ⟨p, _, rfl, .reused found list, kept'⟩⟩
    simp [SlabAllocator.allocate, found, call]

/-- A live request of a class is given back to the free list. -/
theorem Kept.put (kept : Kept s free live) (mem : e ∈ live) (found : sizeClass e.size = some cls) :
    Kept (s.put cls e.offset) (Function.update free cls (e.offset :: free cls)) (live.erase e) where
  threaded := by
    intro c
    have others := kept.threaded_set (kept.notMem_free mem (holds_offset e)) (.next (s.pools cls)) c
    by_cases own : c = cls
    · subst own
      have first : (s.put c e.offset).pools c = some e.offset := by simp [SlabAllocator.put]
      rw [Function.update_self, first]
      refine Threaded.cons ?_ others
      simp [linkAt, SlabAllocator.put]
    · simpa [SlabAllocator.put, Function.update_of_ne own] using others
  shared := by
    have given : block e = ⟨e.offset, kClasses cls⟩ := by rw [block, capacity_of_class found]
    have removed : (live.map block).Perm (block e :: (live.erase e).map block) :=
      (List.perm_cons_erase mem).map block
    refine ((allFree_update free cls _).append_left _).trans ?_
    rw [List.map_cons, List.cons_append, ← given]
    refine List.perm_middle.trans ?_
    rw [← List.cons_append]
    exact (removed.symm.append (allFree_perm free cls).symm).trans kept.shared
  apart := kept.apart

/-- A block may be given back to the C library if it is live. -/
theorem Kept.release (kept : Kept s free live) (mem : e ∈ live) :
    ∃ s', s.free e.offset = some s' ∧ s'.memory = s.memory ∧ Kept s' free (live.erase e) := by
  have removed : (live.map block).Perm (block e :: (live.erase e).map block) :=
    (List.perm_cons_erase mem).map block
  have order : s.heap.Perm (block e :: ((live.erase e).map block ++ allFree free)) :=
    kept.shared.symm.trans (removed.append_right _)
  have inHeap : block e ∈ s.heap := order.mem_iff.mpr List.mem_cons_self
  have starts : s.heap.any (fun b => b.offset == e.offset) = true :=
    List.any_eq_true.mpr ⟨block e, inHeap, by simp [block]⟩
  have once : s.heap.Pairwise fun a b => (a.offset == e.offset) = true →
      (b.offset == e.offset) = true → False := by
    refine kept.apart.imp_of_mem ?_
    intro a b mem_a mem_b apart start_a start_b
    refine offset_ne apart (kept.size_pos mem_a) (kept.size_pos mem_b) ?_
    rw [beq_iff_eq.mp start_a, beq_iff_eq.mp start_b]
  have rest := order.eraseP _ once
  rw [List.eraseP_cons_of_pos (by simp [block])] at rest
  refine ⟨{ s with heap := s.heap.eraseP fun b => b.offset == e.offset }, ?_, rfl, kept.threaded,
    rest.symm, kept.apart.sublist List.eraseP_sublist⟩
  rw [SlabAllocator.free, if_pos starts]

/-- `deallocate` of a live request returns, and writes only into the block that is given back. -/
theorem Kept.deallocate (kept : Kept s free live) (mem : e ∈ live) :
    ∃ s' free', s.deallocate e.offset e.size = some s' ∧ Kept s' free' (live.erase e) ∧
      (∀ a, a ≠ e.offset → s'.memory.find a = s.memory.find a) ∧
      (∀ c, free' c = if sizeClass e.size = some c then e.offset :: free c else free c) := by
  cases found : sizeClass e.size with
  | none =>
    obtain ⟨s', call, same, kept'⟩ := kept.release mem
    exact ⟨s', free, by simp [SlabAllocator.deallocate, found, call], kept', by simp [same], by simp⟩
  | some cls =>
    refine ⟨_, _, by simp only [SlabAllocator.deallocate, found], kept.put mem found, ?_, ?_⟩
    · intro a other
      simp [SlabAllocator.put, UnorderedMap.find_set, other]
    · intro c
      by_cases own : c = cls
      · subst own
        simp
      · simp [Function.update_of_ne own, Ne.symm own]

/-- An address of a live block may be written. -/
theorem Kept.write (kept : Kept s free live) (mem : e ∈ live) {a : Nat} (holds : (block e).Holds a)
    (x : T) : Kept (s.write a x) free live where
  threaded := kept.threaded_set (kept.notMem_free mem holds) (.obj x)
  shared := kept.shared
  apart := kept.apart

/-! ### Runs -/

/-- A client: the requests that are live, what it has written into each since that was served, and
the most live requests there have been of each class. -/
structure Client (T : Type) where
  live : List Extent
  wrote : Nat → Option T
  peak : Fin 9 → Nat

/-- The live requests of a class. -/
def liveOf (live : List Extent) (cls : Fin 9) : Nat :=
  live.countP fun e => sizeClass e.size = some cls

namespace Client

variable (c : Client T)

/-- A client that has asked for nothing. -/
def start : Client T := ⟨[], fun _ => none, fun _ => 0⟩

/-- A request is served. -/
def served (e : Extent) : Client T where
  live := e :: c.live
  wrote := fun a => if (block e).offset ≤ a ∧ a < (block e).stop then none else c.wrote a
  peak := fun cls => max (c.peak cls) (liveOf (e :: c.live) cls)

/-- `x` is written at `a`. -/
def writes (a : Nat) (x : T) : Client T := { c with wrote := Function.update c.wrote a (some x) }

/-- A request is given back. -/
def gave (e : Extent) : Client T := { c with live := c.live.erase e }

end Client

/-- What the calls of a client lead to. A client writes into live requests, and gives back live
requests with the size it asked for. -/
inductive Runs : SlabAllocator T → Client T → Prop where
  | start : Runs empty Client.start
  | served {s s' : SlabAllocator T} {c : Client T} {got : Option Nat} {size ptr : Nat}
      (runs : Runs s c) (fresh : s.Fresh got (capacity size))
      (step : s.allocate got size = some (s', some ptr)) : Runs s' (c.served ⟨ptr, size⟩)
  | refused {s s' : SlabAllocator T} {c : Client T} {got : Option Nat} {size : Nat}
      (runs : Runs s c) (fresh : s.Fresh got (capacity size))
      (step : s.allocate got size = some (s', none)) : Runs s' c
  | wrote {s : SlabAllocator T} {c : Client T} {e : Extent} {a : Nat} (runs : Runs s c)
      (mem : e ∈ c.live) (holds : e.Holds a) (x : T) : Runs (s.write a x) (c.writes a x)
  | gave {s s' : SlabAllocator T} {c : Client T} {e : Extent} (runs : Runs s c)
      (mem : e ∈ c.live) (step : s.deallocate e.offset e.size = some s') : Runs s' (c.gave e)

/-- The blocks of a client and what they hold: the free blocks of a class make up for what was
given back since the most requests of it were live. -/
structure Account (s : SlabAllocator T) (c : Client T) (free : Fin 9 → List Nat) : Prop where
  kept : Kept s free c.live
  peak : ∀ cls, c.peak cls = liveOf c.live cls + (free cls).length
  held : ∀ e ∈ c.live, ∀ a x, (block e).Holds a → c.wrote a = some x →
    s.memory.find a = some (.obj x)

variable {c : Client T}

theorem liveOf_cons (e : Extent) (live : List Extent) (cls : Fin 9) :
    liveOf (e :: live) cls = liveOf live cls + if sizeClass e.size = some cls then 1 else 0 := by
  simp [liveOf, List.countP_cons]

theorem liveOf_erase (mem : e ∈ live) (cls : Fin 9) :
    liveOf (live.erase e) cls + (if sizeClass e.size = some cls then 1 else 0) =
      liveOf live cls := by
  rw [← liveOf_cons]
  exact ((List.perm_cons_erase mem).countP_eq _).symm

theorem holds_of_request {a : Nat} (holds : e.Holds a) : (block e).Holds a :=
  ⟨holds.1, holds.2.trans_le (Nat.add_le_add_left (le_capacity e.size) _)⟩

/-- A block is taken for a request. -/
theorem Account.served {free' : Fin 9 → List Nat} (account : Account s c free)
    (taken : Taken free size ptr free') (kept : Kept s' free' (⟨ptr, size⟩ :: c.live))
    (same : s'.memory = s.memory) : Account s' (c.served ⟨ptr, size⟩) free' where
  kept := kept
  peak := by
    intro cls
    have before := account.peak cls
    change max (c.peak cls) (liveOf (⟨ptr, size⟩ :: c.live) cls) =
      liveOf (⟨ptr, size⟩ :: c.live) cls + (free' cls).length
    rw [liveOf_cons, before]
    cases taken with
    | malloced exhausted =>
      by_cases own : sizeClass size = some cls
      · simp [own, exhausted cls own]
      · simp [own]
    | @reused cls' rest found list =>
      by_cases own : cls' = cls
      · subst own
        rw [if_pos found, list, Function.update_self, List.length_cons]
        omega
      · have other : sizeClass size ≠ some cls := by
          rw [found]
          exact fun same => own (Option.some.inj same)
        rw [if_neg other, Function.update_of_ne (Ne.symm own)]
        omega
  held := by
    intro e mem a x holds wrote
    change (if (block ⟨ptr, size⟩).offset ≤ a ∧ a < (block ⟨ptr, size⟩).stop then none
      else c.wrote a) = some x at wrote
    split at wrote
    · cases wrote
    · rename_i outside
      rcases List.mem_cons.mp mem with rfl | old
      · exact absurd holds outside
      · rw [same]
        exact account.held e old a x holds wrote

theorem Account.writes (account : Account s c free) (mem : e ∈ c.live) {a : Nat}
    (holds : e.Holds a) (x : T) : Account (s.write a x) (c.writes a x) free where
  kept := account.kept.write mem (holds_of_request holds) x
  peak := account.peak
  held := by
    intro f inLive b y within wrote
    by_cases here : b = a
    · subst here
      have last : some x = some y := by simpa [Client.writes] using wrote
      simp [SlabAllocator.write, Option.some.inj last]
    · have before : c.wrote b = some y := by simpa [Client.writes, here] using wrote
      simpa [SlabAllocator.write, UnorderedMap.find_set, here] using
        account.held f inLive b y within before

/-- Live requests have different blocks. -/
theorem Kept.live_apart (kept : Kept s free live) :
    live.Pairwise fun e f => (block e).Apart (block f) :=
  List.pairwise_map.mp (List.pairwise_append.mp kept.pairwise).1

/-- What is left when a request is given back is apart from it. -/
theorem Kept.apart_erase (kept : Kept s free live) (mem : e ∈ live) :
    ∀ f ∈ live.erase e, (block e).Apart (block f) := by
  have order := (List.perm_cons_erase mem).pairwise_iff
    (R := fun e f => (block e).Apart (block f)) fun apart => apart.symm
  exact (List.pairwise_cons.mp (order.mp kept.live_apart)).1

theorem Account.gave (account : Account s c free) (mem : e ∈ c.live)
    (step : s.deallocate e.offset e.size = some s') : ∃ free', Account s' (c.gave e) free' := by
  obtain ⟨s₁, free', call, kept, frame, lists⟩ := account.kept.deallocate mem
  obtain rfl := Option.some.inj (call.symm.trans step)
  refine ⟨free', kept, ?_, ?_⟩
  · intro cls
    have before := account.peak cls
    have counted := liveOf_erase mem cls
    change c.peak cls = liveOf (c.live.erase e) cls + (free' cls).length
    rw [lists cls, before, ← counted]
    split
    · rw [List.length_cons]
      omega
    · omega
  · intro f inLive a x holds wrote
    have other : a ≠ e.offset := by
      rintro rfl
      exact Extent.apart_iff.mp (account.kept.apart_erase mem f inLive) _ (holds_offset e) holds
    rw [frame a other]
    exact account.held f (List.mem_of_mem_erase inLive) a x holds wrote

theorem Runs.account (runs : Runs s c) : ∃ free, Account s c free := by
  induction runs with
  | start => exact ⟨fun _ => [], Kept.empty, fun _ => rfl, by simp [Client.start]⟩
  | served runs fresh step ih =>
    obtain ⟨free, account⟩ := ih
    obtain ⟨s', ret, call, same, ⟨rfl, -, -⟩ | ⟨p, free', rfl, taken, kept⟩⟩ :=
      account.kept.allocate fresh
    · cases call.symm.trans step
    · obtain ⟨rfl, shown⟩ := Prod.mk.inj (Option.some.inj (call.symm.trans step))
      obtain rfl := Option.some.inj shown
      exact ⟨free', account.served taken kept same⟩
  | refused runs fresh step ih =>
    obtain ⟨free, account⟩ := ih
    obtain ⟨s', ret, call, same, ⟨rfl, -, rfl⟩ | ⟨p, free', rfl, -, -⟩⟩ :=
      account.kept.allocate fresh
    · obtain ⟨rfl, -⟩ := Prod.mk.inj (Option.some.inj (call.symm.trans step))
      exact ⟨free, account⟩
    · cases call.symm.trans step
  | wrote runs mem holds x ih =>
    obtain ⟨free, account⟩ := ih
    exact ⟨free, account.writes mem holds x⟩
  | gave runs mem step ih =>
    obtain ⟨free, account⟩ := ih
    exact account.gave mem step

/-- What a client relies on. The blocks the C library keeps are those of the live requests and
those on the free lists, each once. -/
structure Sound (s : SlabAllocator T) (c : Client T) : Prop where
  fits : ∀ e ∈ c.live, e.size ≤ (block e).size
  apart : c.live.Pairwise fun e f => (block e).Apart (block f)
  listed : ∃ free, (∀ cls, Threaded (linkAt s.memory) (s.pools cls) (free cls)) ∧
    (c.live.map block ++ allFree free).Perm s.heap
  held : ∀ e ∈ c.live, ∀ a x, e.Holds a → c.wrote a = some x → s.memory.find a = some (.obj x)
  serves : ∀ got size, s.Fresh got (capacity size) →
    ∃ s' ret, s.allocate got size = some (s', ret) ∧ (got.isSome → ret.isSome)
  takes : ∀ e ∈ c.live, (s.deallocate e.offset e.size).isSome

theorem runs_sound (runs : Runs s c) : Sound s c := by
  obtain ⟨free, account⟩ := runs.account
  have kept := account.kept
  refine ⟨fun e _ => le_capacity e.size, kept.live_apart, ⟨free, kept.threaded, kept.shared⟩,
    fun e mem a x holds => account.held e mem a x (holds_of_request holds), ?_, ?_⟩
  · intro got size fresh
    obtain ⟨s', ret, call, -, ⟨-, rfl, -⟩ | ⟨p, -, rfl, -⟩⟩ := kept.allocate fresh
    · exact ⟨s', ret, call, fun given => by cases given⟩
    · exact ⟨s', some p, call, fun _ => rfl⟩
  · intro e mem
    obtain ⟨s', -, call, -⟩ := kept.deallocate mem
    rw [call]
    rfl

/-- A block of 64 bytes is given back and serves another request. -/
theorem runs_sound_reused : ∃ (s : SlabAllocator Nat) (c : Client Nat),
    c.live = [⟨4096, 60⟩] ∧ s.heap = [⟨4096, 64⟩] ∧ Sound s c := by
  have step : (empty : SlabAllocator Nat).allocate (some 4096) 56 = some (_, some 4096) := rfl
  have first := Runs.start.served (by simp [Fresh, empty]) step
  have mem : (⟨4096, 56⟩ : Extent) ∈ (Client.start.served ⟨4096, 56⟩ : Client Nat).live :=
    List.mem_singleton_self _
  have back := first.gave mem rfl
  have again := back.served (by simp [Fresh])
    (rfl : SlabAllocator.allocate _ none 60 = some (_, some 4096))
  exact ⟨_, _, rfl, rfl, runs_sound again⟩

/-- Of each class the C library keeps as many blocks as requests have been live at once. -/
theorem blocks_peak (runs : Runs s c) (cls : Fin 9) :
    s.heap.countP (·.size = kClasses cls) = c.peak cls := by
  obtain ⟨free, account⟩ := runs.account
  rw [← account.kept.shared.countP_eq, List.countP_append, countP_allFree, account.peak cls,
    List.countP_map]
  congr 1
  apply List.countP_congr
  intro e _
  simp [block, capacity_eq_iff]

/-- Two requests that are live at once, and one that is served when both are given back. -/
theorem blocks_peak_two : ∃ (s : SlabAllocator Nat) (c : Client Nat), c.live = [⟨8192, 64⟩] ∧
    c.peak 3 = 2 ∧ s.heap.countP (·.size = 64) = c.peak 3 := by
  have step : (empty : SlabAllocator Nat).allocate (some 4096) 56 = some (_, some 4096) := rfl
  have first := Runs.start.served (by simp [Fresh, empty]) step
  have other : (⟨8192, capacity 60⟩ : Extent).Apart ⟨4096, kClasses 3⟩ := by decide
  have second := first.served (by simpa [Fresh, malloc, empty] using other)
    (rfl : SlabAllocator.allocate _ (some 8192) 60 = some (_, some 8192))
  have mem : (⟨4096, 56⟩ : Extent) ∈
      ((Client.start.served ⟨4096, 56⟩).served ⟨8192, 60⟩ : Client Nat).live := by decide
  have back := second.gave mem rfl
  have mem' : (⟨8192, 60⟩ : Extent) ∈
      (((Client.start.served ⟨4096, 56⟩).served ⟨8192, 60⟩).gave ⟨4096, 56⟩ : Client Nat).live := by
    decide
  have both := back.gave mem' rfl
  have third := both.served (by simp [Fresh])
    (rfl : SlabAllocator.allocate _ none 64 = some (_, some 8192))
  exact ⟨_, _, rfl, rfl, blocks_peak third 3⟩

end FastGraph.SlabAllocator
