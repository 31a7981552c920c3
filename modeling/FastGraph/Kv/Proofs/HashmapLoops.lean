import FastGraph.Kv.Hashmap
import FastGraph.Misc.RobinHood

/-!
# The loops of the key-value table

The slots of `RobinHoodMap` are a Robin Hood table of items; each probe loop of the source
keeps it one. What a loop returns is stated for any ring size `n` whose mask takes
numbers modulo `n`, with the number of iterations it needs: the distance to a free slot,
or to the key.
-/

namespace FastGraph

/-- What an entry stores, its distance from home apart. -/
@[ext] structure Item where
  hash : UInt32
  key : Bytes
  val : Bytes

/-- The item of an entry. -/
def Entry.item (e : Entry) : Item := ⟨e.hash, e.key, e.val⟩

namespace RobinHoodMap
open RobinHood

/-- The home of an item, before it is taken modulo the ring size. -/
def home (x : Item) : Nat := x.hash.toNat

/-- The entries as a Robin Hood table. -/
def view (entries : Array Entry) : Table Item := fun i =>
  if (slot entries i).empty then none else some ⟨(slot entries i).dib, (slot entries i).item⟩

/-- What every probe loop keeps: the slots are in Robin Hood order, hold no key twice, and
every item carries the hash of its key. -/
structure SlotsOk (n : Nat) (entries : Array Entry) : Prop where
  size : entries.size = n
  ordered : Ordered n home (view entries)
  distinct : Distinct n Item.key (view entries)
  hashed : ∀ x, Has n (view entries) x → x.hash = hash x.key

section
variable {n mask idx fuel : Nat} {h : UInt32} {entries : Array Entry} {incoming : Entry}

theorem hash_ne_empty (key : Bytes) : hash key ≠ hashEmpty := by
  unfold hash
  dsimp only
  split
  · rename_i isEmpty
    rw [isEmpty]
    decide
  · assumption

theorem slot_set (entries : Array Entry) (idx j : Nat) (e : Entry) (bound : idx < entries.size) :
    slot (entries.setIfInBounds idx e) j = if j = idx then e else slot entries j := by
  unfold slot
  by_cases same : j = idx
  · subst same
    simp [bound]
  · simp [Array.getElem?_setIfInBounds_ne (Ne.symm same), same]

theorem view_set {idx : Nat} {e : Entry} (bound : idx < entries.size) :
    view (entries.setIfInBounds idx e) =
      Function.update (view entries) idx (if e.empty then none else some ⟨e.dib, e.item⟩) := by
  funext j
  unfold view
  rw [slot_set _ _ _ _ bound]
  by_cases same : j = idx
  · subst same
    simp
  · simp [same]

theorem view_of_empty (free : (slot entries idx).empty = true) : view entries idx = none := by
  simp [view, free]

theorem view_of_occupied (occupied : (slot entries idx).empty = false) :
    view entries idx = some ⟨(slot entries idx).dib, (slot entries idx).item⟩ := by
  simp [view, occupied]

theorem occupied_of_view {c : Cell Item} (at_idx : view entries idx = some c) :
    (slot entries idx).empty = false ∧ (slot entries idx).dib = c.dib ∧
      (slot entries idx).item = c.item := by
  by_cases free : (slot entries idx).empty = true
  · rw [view_of_empty free] at at_idx
    cases at_idx
  · rw [view_of_occupied (by simpa using free)] at at_idx
    cases at_idx
    exact ⟨by simpa using free, rfl, rfl⟩

theorem notEmpty_of_hash {e : Entry} (hashed : e.hash = hash e.key) : e.empty = false := by
  simp [Entry.empty, hashed, hash_ne_empty]

/-! ### Insertion of a new key -/

/-- An entry under way to its slot: it has reached `idx`, and no slot holds its key. -/
structure Incoming (n : Nat) (entries : Array Entry) (idx : Nat) (incoming : Entry) : Prop where
  slots : SlotsOk n entries
  here : (incoming.hash.toNat + incoming.dib) % n = idx
  reached : Reached n home (view entries) incoming.item incoming.dib
  hashed : incoming.hash = hash incoming.key
  fresh : ∀ x, Has n (view entries) x → x.key ≠ incoming.key

/-- The entry goes into a free slot. -/
theorem Incoming.place (inc : Incoming n entries idx incoming) (hidx : idx < n)
    (free : (slot entries idx).empty = true) :
    SlotsOk n (entries.setIfInBounds idx incoming) ∧
      (∀ x, Has n (view (entries.setIfInBounds idx incoming)) x ↔
        x = incoming.item ∨ Has n (view entries) x) ∧
      load n (view (entries.setIfInBounds idx incoming)) = load n (view entries) + 1 := by
  have bound : idx < entries.size := by rw [inc.slots.size]; exact hidx
  have gap := view_of_empty free
  have set : view (entries.setIfInBounds idx incoming) =
      Function.update (view entries) idx (some ⟨incoming.dib, incoming.item⟩) := by
    rw [view_set bound, notEmpty_of_hash inc.hashed]
    rfl
  have contents : ∀ x, Has n (view (entries.setIfInBounds idx incoming)) x ↔
      x = incoming.item ∨ Has n (view entries) x := by
    intro x
    rw [set, has_update_some hidx, has_of_free gap]
    exact or_congr eq_comm Iff.rfl
  refine ⟨⟨by simp [inc.slots.size], ?_, ?_, ?_⟩, contents, ?_⟩
  · rw [set]
    exact inc.slots.ordered.place inc.reached inc.here gap
  · rw [set]
    apply (inc.slots.distinct.except idx).update_some
    intro y hy
    exact inc.fresh y ((has_of_free gap).mpr hy)
  · intro x hx
    rcases (contents x).mp hx with rfl | old
    · exact inc.hashed
    · exact inc.slots.hashed x old
  · rw [set]
    exact load_update_some hidx gap

/-- The entry displaces one that is nearer home, which is under way from there. -/
theorem Incoming.displace (inc : Incoming n entries idx incoming) (hidx : idx < n)
    (occupied : (slot entries idx).empty = false)
    (nearer : (slot entries idx).dib < incoming.dib) :
    Incoming n (entries.setIfInBounds idx incoming) (next n idx)
        { slot entries idx with dib := (slot entries idx).dib + 1 } ∧
      (∀ x, x = (slot entries idx).item ∨ Has n (view (entries.setIfInBounds idx incoming)) x ↔
        x = incoming.item ∨ Has n (view entries) x) ∧
      load n (view (entries.setIfInBounds idx incoming)) = load n (view entries) := by
  have bound : idx < entries.size := by rw [inc.slots.size]; exact hidx
  have at_idx := view_of_occupied occupied
  have position := inc.slots.ordered.position idx _ hidx at_idx
  have set : view (entries.setIfInBounds idx incoming) =
      Function.update (view entries) idx (some ⟨incoming.dib, incoming.item⟩) := by
    rw [view_set bound, notEmpty_of_hash inc.hashed]
    rfl
  have held : Has n (view entries) (slot entries idx).item := ⟨idx, _, hidx, at_idx, rfl⟩
  have contents : ∀ x, Has n (view (entries.setIfInBounds idx incoming)) x ↔
      x = incoming.item ∨ HasExcept n (view entries) idx x := by
    intro x
    rw [set, has_update_some hidx]
    exact or_congr eq_comm Iff.rfl
  have old : ∀ x, Has n (view entries) x ↔
      x = (slot entries idx).item ∨ HasExcept n (view entries) idx x := by
    intro x
    rw [has_of_occupied hidx at_idx]
    exact or_congr eq_comm Iff.rfl
  refine ⟨⟨⟨by simp [inc.slots.size], ?_, ?_, ?_⟩, ?_, ?_, ?_, ?_⟩, ?_, ?_⟩
  · rw [set]
    exact inc.slots.ordered.displace inc.reached inc.here at_idx nearer.le
  · rw [set]
    apply (inc.slots.distinct.except idx).update_some
    intro y hy
    exact inc.fresh y ((old y).mpr (Or.inr hy))
  · intro x hx
    rcases (contents x).mp hx with rfl | other
    · exact inc.hashed
    · exact inc.slots.hashed x ((old x).mpr (Or.inr other))
  · have step := congrArg (next n) position
    rw [← step, next_mod]
    rfl
  · rw [set]
    exact inc.slots.ordered.reached_displaced hidx at_idx nearer.le
  · exact inc.slots.hashed _ held
  · intro x hx same
    rcases (contents x).mp hx with rfl | other
    · exact inc.fresh _ held same.symm
    · obtain ⟨j, c, hj, hne, at_j, rfl⟩ := other
      exact hne (inc.slots.distinct j idx c _ hj hidx at_j at_idx same)
  · intro x
    rw [contents, old]
    tauto
  · rw [set]
    exact load_update_occupied (by simp [at_idx])

/-- The entry passes a slot whose item is as far from home. -/
theorem Incoming.advance (inc : Incoming n entries idx incoming) (hidx : idx < n)
    (occupied : (slot entries idx).empty = false)
    (far : incoming.dib ≤ (slot entries idx).dib) :
    Incoming n entries (next n idx) { incoming with dib := incoming.dib + 1 } where
  slots := inc.slots
  here := by
    rw [← inc.here, next_mod, ← Nat.add_assoc]
  reached := reached_next hidx inc.here (view_of_occupied occupied) far
  hashed := inc.hashed
  fresh := inc.fresh

/-- The insertion loop of `grow` puts the entry into the table. -/
theorem growInsert_spec (masks : ∀ x, x &&& mask = x % n) {free : Nat} (hfree : free < n)
    (inc : Incoming n entries idx incoming) (hidx : idx < n) (gap : view entries free = none)
    (enough : distance n idx free < fuel) :
    ∃ entries', growInsert mask fuel idx incoming entries = some entries' ∧ SlotsOk n entries' ∧
      (∀ x, Has n (view entries') x ↔ x = incoming.item ∨ Has n (view entries) x) ∧
      load n (view entries') = load n (view entries) + 1 := by
  induction fuel generalizing idx incoming entries with
  | zero => omega
  | succ fuel ih =>
    unfold growInsert
    dsimp only
    by_cases empty : (slot entries idx).empty = true
    · obtain ⟨slots, contents, grown⟩ := inc.place hidx empty
      exact ⟨_, by rw [if_pos empty], slots, contents, grown⟩
    · have occupied : (slot entries idx).empty = false := by simpa using empty
      have ne : idx ≠ free := by
        rintro rfl
        rw [view_of_occupied occupied] at gap
        cases gap
      have nearer := distance_next hidx hfree ne
      rw [if_neg empty, masks]
      by_cases swap : (slot entries idx).dib < incoming.dib
      · obtain ⟨moved, contents, same⟩ := inc.displace hidx occupied swap
        have gap' : view (entries.setIfInBounds idx incoming) free = none := by
          rw [view_set (by rw [inc.slots.size]; exact hidx), Function.update_of_ne (Ne.symm ne), gap]
        obtain ⟨entries', run, slots, contents', grown⟩ :=
          ih moved (next_lt hidx) gap' (by omega)
        refine ⟨entries', by rw [if_pos swap]; exact run, slots, ?_, by rw [grown, same]⟩
        intro x
        rw [contents' x, ← contents x]
        rfl
      · have advanced := inc.advance hidx occupied (by omega)
        obtain ⟨entries', run, slots, contents, grown⟩ :=
          ih advanced (next_lt hidx) gap (by omega)
        exact ⟨entries', by rw [if_neg swap]; exact run, slots, contents, grown⟩

/-- For a key that no slot holds the comparison of `set` never succeeds, before or after a
displacement, and its loop is that of `grow`. -/
theorem setLoop_fresh (masks : ∀ x, x &&& mask = x % n) (inc : Incoming n entries idx incoming)
    (hidx : idx < n) :
    setLoop mask h fuel idx incoming entries =
      (growInsert mask fuel idx incoming entries).map fun entries => (entries, true) := by
  induction fuel generalizing idx incoming entries with
  | zero => rfl
  | succ fuel ih =>
    unfold setLoop growInsert
    dsimp only
    by_cases empty : (slot entries idx).empty = true
    · rw [if_pos empty, if_pos empty]
      rfl
    · have occupied : (slot entries idx).empty = false := by simpa using empty
      have other : (slot entries idx).key ≠ incoming.key :=
        inc.fresh _ ⟨idx, _, hidx, view_of_occupied occupied, rfl⟩
      rw [if_neg empty, if_neg empty, if_neg (fun hit => other hit.2), masks]
      by_cases swap : (slot entries idx).dib < incoming.dib
      · rw [if_pos swap, if_pos swap]
        exact ih (inc.displace hidx occupied swap).1 (next_lt hidx)
      · rw [if_neg swap, if_neg swap]
        exact ih (inc.advance hidx occupied (by omega)) (next_lt hidx)

/-! ### A key that is present -/

/-- On the way from its home to the slot of a key every slot is occupied, none is nearer
home than the way that has been gone, and only the last one holds the key. -/
theorem SlotsOk.onPath (slots : SlotsOk n entries) {j t : Nat} {c : Cell Item} (hj : j < n)
    (at_j : view entries j = some c) (ht : t ≤ c.dib)
    (here : ((hash c.item.key).toNat + t) % n = idx) :
    (slot entries idx).empty = false ∧ t ≤ (slot entries idx).dib ∧
      ((slot entries idx).key = c.item.key → idx = j) ∧
      (idx = j → (slot entries idx).key = c.item.key ∧
        (slot entries idx).hash = hash c.item.key) ∧ (t = c.dib → idx = j) := by
  have hashed := slots.hashed c.item ⟨j, c, hj, at_j, rfl⟩
  obtain ⟨c', at_idx, far⟩ := slots.ordered.path hj at_j ht
  rw [home, hashed, here] at at_idx
  obtain ⟨occupied, dib, item⟩ := occupied_of_view at_idx
  have hidx : idx < n := by
    rw [← here]
    exact Nat.mod_lt _ (by omega)
  have key : (slot entries idx).key = c'.item.key := congrArg Item.key item
  refine ⟨occupied, by omega, ?_, ?_, ?_⟩
  · intro same
    exact slots.distinct idx j c' c hidx hj at_idx at_j (by rw [← key, same])
  · rintro rfl
    rw [at_idx] at at_j
    cases at_j
    have hash_eq : (slot entries idx).hash = c.item.hash := congrArg Item.hash item
    exact ⟨key, by rw [hash_eq, hashed]⟩
  · rintro rfl
    rw [← here, ← hashed]
    exact slots.ordered.position j c hj at_j

theorem findLoop_present (masks : ∀ x, x &&& mask = x % n) (slots : SlotsOk n entries)
    {j t : Nat} {c : Cell Item} (hj : j < n) (at_j : view entries j = some c) (ht : t ≤ c.dib)
    (here : ((hash c.item.key).toNat + t) % n = idx) (enough : c.dib - t < fuel) :
    findLoop mask (hash c.item.key) c.item.key entries fuel idx t = some (some j) := by
  induction fuel generalizing idx t with
  | zero => omega
  | succ fuel ih =>
    obtain ⟨occupied, far, onlyHere, there, atEnd⟩ := slots.onPath hj at_j ht here
    unfold findLoop
    dsimp only
    rw [if_neg (by simp [occupied]), if_neg (by omega)]
    by_cases arrived : idx = j
    · rw [if_pos ⟨(there arrived).2, (there arrived).1⟩, arrived]
    · have notEnd : t ≠ c.dib := fun e => arrived (atEnd e)
      rw [if_neg (fun hit => arrived (onlyHere hit.2)), masks]
      apply ih (by omega) _ (by omega)
      rw [← here]
      exact (next_mod n _).symm

theorem setLoop_present (masks : ∀ x, x &&& mask = x % n) (slots : SlotsOk n entries)
    {j t : Nat} {c : Cell Item} (val : Bytes) (hj : j < n) (at_j : view entries j = some c)
    (ht : t ≤ c.dib) (here : ((hash c.item.key).toNat + t) % n = idx)
    (enough : c.dib - t < fuel) :
    setLoop mask (hash c.item.key) fuel idx ⟨hash c.item.key, t, c.item.key, val⟩ entries =
      some (entries.setIfInBounds j { slot entries j with val := val }, false) := by
  induction fuel generalizing idx t with
  | zero => omega
  | succ fuel ih =>
    obtain ⟨occupied, far, onlyHere, there, atEnd⟩ := slots.onPath hj at_j ht here
    unfold setLoop
    dsimp only
    rw [if_neg (by simp [occupied])]
    by_cases arrived : idx = j
    · rw [if_pos ⟨(there arrived).2, (there arrived).1⟩, arrived]
    · have notEnd : t ≠ c.dib := fun e => arrived (atEnd e)
      rw [if_neg (fun hit => arrived (onlyHere hit.2)), if_neg (by omega), masks]
      apply ih (by omega) _ (by omega)
      rw [← here]
      exact (next_mod n _).symm

/-- A new value for a key leaves every other item where it is. -/
theorem SlotsOk.setVal (slots : SlotsOk n entries) {j : Nat} {c : Cell Item} (val : Bytes)
    (hj : j < n) (at_j : view entries j = some c) :
    SlotsOk n (entries.setIfInBounds j { slot entries j with val := val }) ∧
      (∀ x, Has n (view (entries.setIfInBounds j { slot entries j with val := val })) x ↔
        x = { c.item with val := val } ∨ Has n (view entries) x ∧ x.key ≠ c.item.key) ∧
      load n (view (entries.setIfInBounds j { slot entries j with val := val })) =
        load n (view entries) := by
  obtain ⟨occupied, dib, item⟩ := occupied_of_view at_j
  have set : view (entries.setIfInBounds j { slot entries j with val := val }) =
      Function.update (view entries) j (some ⟨c.dib, { c.item with val := val }⟩) := by
    rw [view_set (by rw [slots.size]; exact hj)]
    rw [show ({ slot entries j with val := val } : Entry).empty = false from occupied, ← item, ← dib]
    rfl
  have others : ∀ x, HasExcept n (view entries) j x ↔
      Has n (view entries) x ∧ x.key ≠ c.item.key := by
    intro x
    constructor
    · rintro ⟨i, c', hi, hij, at_i, rfl⟩
      refine ⟨⟨i, c', hi, at_i, rfl⟩, fun same => hij ?_⟩
      exact slots.distinct i j c' c hi hj at_i at_j same
    · rintro ⟨held, other⟩
      rcases (has_of_occupied hj at_j).mp held with rfl | rest
      · exact absurd rfl other
      · exact rest
  have contents : ∀ x, Has n (view (entries.setIfInBounds j { slot entries j with val := val })) x ↔
      x = { c.item with val := val } ∨ Has n (view entries) x ∧ x.key ≠ c.item.key := by
    intro x
    rw [set, has_update_some hj, others]
    exact or_congr eq_comm Iff.rfl
  refine ⟨⟨by simp [slots.size], ?_, ?_, ?_⟩, contents, ?_⟩
  · rw [set]
    apply slots.ordered.displace _ _ at_j le_rfl
    · exact slots.ordered.reached_self hj at_j
    · exact slots.ordered.position j c hj at_j
  · rw [set]
    apply (slots.distinct.except j).update_some
    intro y hy
    exact ((others y).mp hy).2
  · intro x hx
    rcases (contents x).mp hx with rfl | ⟨old, -⟩
    · exact slots.hashed c.item ⟨j, c, hj, at_j, rfl⟩
    · exact slots.hashed x old
  · rw [set]
    exact load_update_occupied (by simp [at_j])

/-! ### A key that is absent -/

theorem findLoop_absent (masks : ∀ x, x &&& mask = x % n) {key : Bytes} {free t : Nat}
    (absent : ∀ x, Has n (view entries) x → x.key ≠ key) (hfree : free < n) (hidx : idx < n)
    (gap : view entries free = none) (enough : distance n idx free < fuel) :
    findLoop mask h key entries fuel idx t = some none := by
  induction fuel generalizing idx t with
  | zero => omega
  | succ fuel ih =>
    unfold findLoop
    dsimp only
    by_cases empty : (slot entries idx).empty = true
    · rw [if_pos empty]
    · have occupied : (slot entries idx).empty = false := by simpa using empty
      have other : (slot entries idx).key ≠ key :=
        absent _ ⟨idx, _, hidx, view_of_occupied occupied, rfl⟩
      have ne : idx ≠ free := by
        rintro rfl
        rw [view_of_occupied occupied] at gap
        cases gap
      have nearer := distance_next hidx hfree ne
      rw [if_neg empty]
      split
      · rfl
      · rw [if_neg (fun hit => other hit.2), masks]
        have later : distance n (next n idx) free < fuel := by omega
        exact ih (next_lt hidx) later

/-! ### Deletion -/

/-- `erase_at` fills the hole from behind until the next item is at home. The entry in the
hole is stale: it has been deleted, or moved back by the iteration before. -/
theorem eraseAt_spec (masks : ∀ x, x &&& mask = x % n) {free : Nat} {hole : Cell Item}
    (hfree : free < n) (hidx : idx < n) (size : entries.size = n)
    (ordered : Ordered n home (view entries))
    (distinct : DistinctExcept n Item.key (view entries) idx)
    (at_idx : view entries idx = some hole) (gap : view entries free = none)
    (enough : distance n idx free ≤ fuel) :
    ∃ entries', eraseAt mask fuel idx entries = some entries' ∧ entries'.size = n ∧
      Ordered n home (view entries') ∧ Distinct n Item.key (view entries') ∧
      (∀ x, Has n (view entries') x ↔ HasExcept n (view entries) idx x) ∧
      load n (view entries') + 1 = load n (view entries) := by
  have ne : ∀ {entries : Array Entry} {idx : Nat} {hole : Cell Item},
      view entries idx = some hole → view entries free = none → idx ≠ free := by
    rintro entries idx hole at_idx gap rfl
    rw [at_idx] at gap
    cases gap
  induction fuel generalizing idx entries hole with
  | zero =>
    have here := (distance_eq_zero hidx hfree).mp (Nat.le_zero.mp enough)
    exact absurd here (ne at_idx gap)
  | succ fuel ih =>
    have nearer := distance_next hidx hfree (ne at_idx gap)
    have apart : next n idx ≠ idx := by
      intro same
      have := ne at_idx gap
      rw [same] at nearer
      omega
    unfold eraseAt
    dsimp only
    rw [masks]
    change ∃ entries', (if (slot entries (next n idx)).empty ∨ (slot entries (next n idx)).dib = 0
      then _ else _) = some entries' ∧ _
    by_cases stop : (slot entries (next n idx)).empty = true ∨ (slot entries (next n idx)).dib = 0
    · have set : view (entries.setIfInBounds idx Entry.vacant) =
          Function.update (view entries) idx none := by
        rw [view_set (by rw [size]; exact hidx)]
        rfl
      refine ⟨_, by rw [if_pos stop], by simp [size], ?_, ?_, ?_, ?_⟩
      · rw [set]
        apply ordered.clear hidx
        intro c after
        obtain ⟨occupied, dib, -⟩ := occupied_of_view after
        rcases stop with free | home
        · rw [occupied] at free
          cases free
        · rw [← dib, home]
      · rw [set]
        exact distinct.update_none
      · intro x
        rw [set, has_update_none hidx]
      · rw [set]
        exact load_update_none hidx (by simp [at_idx])
    · rw [if_neg stop]
      simp only [not_or, Bool.not_eq_true] at stop
      obtain ⟨occupied, away⟩ := stop
      have after := view_of_occupied occupied
      generalize movedEq : entries.setIfInBounds idx { slot entries (next n idx) with
        dib := (slot entries (next n idx)).dib - 1 } = moved
      have set : view moved = Function.update (view entries) idx
          (some ⟨(slot entries (next n idx)).dib - 1, (slot entries (next n idx)).item⟩) := by
        rw [← movedEq, view_set (by rw [size]; exact hidx)]
        rw [show ({ slot entries (next n idx) with
          dib := (slot entries (next n idx)).dib - 1 } : Entry).empty = false from occupied]
        rfl
      have movedSize : moved.size = n := by
        rw [← movedEq, Array.size_setIfInBounds, size]
      have movedOrdered : Ordered n home (view moved) := by
        rw [set]
        exact ordered.shift hidx at_idx after (by dsimp only; omega)
      have movedDistinct : DistinctExcept n Item.key (view moved) (next n idx) := by
        rw [set]
        exact distinct.shift hidx apart after
      have stale : view moved (next n idx) =
          some ⟨(slot entries (next n idx)).dib, (slot entries (next n idx)).item⟩ := by
        rw [set, Function.update_of_ne apart]
        exact after
      have movedGap : view moved free = none := by
        rw [set, Function.update_of_ne (Ne.symm (ne at_idx gap))]
        exact gap
      obtain ⟨entries', run, size', ordered', distinct', contents, fewer⟩ :=
        ih (next_lt hidx) movedSize movedOrdered movedDistinct stale movedGap (by omega)
      rw [← movedEq] at run
      refine ⟨entries', run, size', ordered', distinct', ?_, ?_⟩
      · intro x
        rw [contents, set]
        exact hasExcept_shift hidx apart after
      · rw [fewer, set]
        exact load_update_occupied (by simp [at_idx])

end

end RobinHoodMap

end FastGraph
