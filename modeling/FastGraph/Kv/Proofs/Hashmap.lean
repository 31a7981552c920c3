import FastGraph.Kv.Proofs.HashmapLoops
import FastGraph.Misc.UnorderedMap

/-!
# The key-value table is a finite map

`set`, `get` and `del` of a well-formed `RobinHoodMap` return, keep it well formed, and
answer as the finite map of its bindings. A table reached from the default constructor is
well formed, whatever keys collide and however often it has grown.
-/

namespace FastGraph.RobinHoodMap
open RobinHood

/-- The invariant of the table between calls. -/
structure WellFormed (m : RobinHoodMap) : Prop where
  mask : m.mask + 1 = m.capacity
  power : ∃ k, m.capacity = 2 ^ k
  two : 2 ≤ m.capacity
  slots : SlotsOk m.capacity m.entries
  counted : load m.capacity (view m.entries) = m.size
  loaded : 4 * m.size ≤ 3 * m.capacity

/-- A table under construction by `grow`. -/
structure Growing (m : RobinHoodMap) : Prop where
  mask : m.mask + 1 = m.capacity
  power : ∃ k, m.capacity = 2 ^ k
  slots : SlotsOk m.capacity m.entries
  counted : load m.capacity (view m.entries) = m.size

/-- A table in which every probe ends: it has a free slot. -/
structure Probed (m : RobinHoodMap) : Prop extends Growing m where
  gap : m.size < m.capacity

/-- The table binds `k` to `v`. -/
def Binds (m : RobinHoodMap) (k v : Bytes) : Prop :=
  Has m.capacity (view m.entries) ⟨hash k, k, v⟩

section
variable {m m' : RobinHoodMap} {k v : Bytes}

theorem WellFormed.probed (wf : WellFormed m) : Probed m := by
  have loaded := wf.loaded
  have two := wf.two
  exact ⟨⟨wf.mask, wf.power, wf.slots, wf.counted⟩, by omega⟩

theorem Growing.masks (growing : Growing m) (x : Nat) : x &&& m.mask = x % m.capacity := by
  obtain ⟨e, he⟩ := growing.power
  have mask : m.mask = 2 ^ e - 1 := by have := growing.mask; omega
  rw [mask, he]
  exact Nat.and_two_pow_sub_one_eq_mod x e

theorem Probed.free (probed : Probed m) :
    ∃ free, free < m.capacity ∧ view m.entries free = none := by
  apply exists_free
  rw [probed.counted]
  exact probed.gap

theorem Probed.home_lt (probed : Probed m) (k : Bytes) :
    (hash k).toNat &&& m.mask < m.capacity := by
  rw [probed.masks]
  exact Nat.mod_lt _ (by have := probed.gap; omega)

/-- An occupied slot is one of the block. -/
theorem Probed.occupied_lt (probed : Probed m) {idx : Nat}
    (occupied : (slot m.entries idx).empty = false) : idx < m.capacity := by
  by_contra outside
  have vacant : slot m.entries idx = Entry.vacant := by
    unfold slot
    rw [Array.getD_eq_getD_getElem?, Array.getElem?_eq_none (by rw [probed.slots.size]; omega)]
    rfl
  rw [vacant] at occupied
  cases occupied

/-- The items of the table are its bindings. -/
theorem Probed.has_iff (probed : Probed m) {x : Item} :
    Has m.capacity (view m.entries) x ↔ x.hash = hash x.key ∧ Binds m x.key x.val := by
  constructor
  · intro held
    have hashed := probed.slots.hashed x held
    refine ⟨hashed, ?_⟩
    unfold Binds
    rw [← hashed]
    exact held
  · rintro ⟨hashed, bound⟩
    unfold Binds at bound
    rw [← hashed] at bound
    exact bound

theorem Probed.unique (probed : Probed m) {v v' : Bytes} (one : Binds m k v)
    (two : Binds m k v') : v = v' :=
  congrArg Item.val (probed.slots.distinct.has_unique one two rfl)

/-- Whether a key is bound decides how every probe for it ends. -/
theorem Probed.find_cases (probed : Probed m) (k : Bytes) :
    (∃ j c, j < m.capacity ∧ view m.entries j = some c ∧ c.item.key = k ∧
        Binds m k c.item.val ∧ c.dib < m.capacity) ∨
      (∀ x, Has m.capacity (view m.entries) x → x.key ≠ k) := by
  by_cases present : ∃ x, Has m.capacity (view m.entries) x ∧ x.key = k
  · obtain ⟨x, ⟨j, c, hj, at_j, rfl⟩, rfl⟩ := present
    obtain ⟨free, hfree, gap⟩ := probed.free
    refine Or.inl ⟨j, c, hj, at_j, rfl, ?_, probed.slots.ordered.dib_lt hj at_j hfree gap⟩
    exact (probed.has_iff.mp ⟨j, c, hj, at_j, rfl⟩).2
  · exact Or.inr fun x held same => present ⟨x, held, same⟩

theorem absent_of_fresh (absent : ∀ x, Has m.capacity (view m.entries) x → x.key ≠ k) :
    ¬ Binds m k v := fun bound => absent _ bound rfl

theorem Probed.findLoop_eq (probed : Probed m) {j : Nat} {c : Cell Item}
    (hj : j < m.capacity) (at_j : view m.entries j = some c) (near : c.dib < m.capacity) :
    findLoop m.mask (hash c.item.key) c.item.key m.entries m.capacity
      ((hash c.item.key).toNat &&& m.mask) 0 = some (some j) := by
  apply findLoop_present probed.masks probed.slots hj at_j (Nat.zero_le _)
  · rw [probed.masks, Nat.add_zero]
  · omega

theorem Probed.findLoop_none (probed : Probed m)
    (absent : ∀ x, Has m.capacity (view m.entries) x → x.key ≠ k) :
    findLoop m.mask (hash k) k m.entries m.capacity ((hash k).toNat &&& m.mask) 0 =
      some none := by
  obtain ⟨free, hfree, gap⟩ := probed.free
  exact findLoop_absent probed.masks absent hfree (probed.home_lt k) gap (distance_lt (probed.home_lt k) _)

/-! ### get -/

theorem Probed.get (probed : Probed m) (k : Bytes) :
    ∃ r, m.get k = some r ∧ ∀ v, r = some v ↔ Binds m k v := by
  unfold RobinHoodMap.get
  rcases probed.find_cases k with ⟨j, c, hj, at_j, rfl, bound, near⟩ | absent
  · obtain ⟨-, -, item⟩ := occupied_of_view at_j
    have val : (slot m.entries j).val = c.item.val := congrArg Item.val item
    refine ⟨some c.item.val, ?_, ?_⟩
    · simp [probed.findLoop_eq hj at_j near, val]
    · intro v
      constructor
      · rintro ⟨⟩
        exact bound
      · intro other
        rw [probed.unique bound other]
  · refine ⟨none, ?_, ?_⟩
    · simp [probed.findLoop_none absent]
    · intro v
      simp [absent_of_fresh absent]

theorem get_spec (wf : WellFormed m) (k : Bytes) :
    ∃ r, m.get k = some r ∧ ∀ v, r = some v ↔ Binds m k v :=
  wf.probed.get k

/-! ### grow -/

/-- The number of occupied slots, counted along the array. -/
theorem load_view {n : Nat} {entries : Array Entry} (size : entries.size = n) :
    load n (view entries) = entries.toList.countP fun e => !e.empty := by
  have listed : entries.toList = (List.range n).map (slot entries) := by
    apply List.ext_getElem
    · simp [size]
    · intro i h₁ h₂
      have hi : i < entries.size := by simpa using h₁
      simp [slot, hi]
  have isSome : ∀ i, (view entries i).isSome = !(slot entries i).empty := by
    intro i
    unfold view
    split <;> simp_all
  rw [listed, List.countP_map, List.countP_eq_length_filter]
  unfold load
  simp only [isSome]
  change (List.filter (fun i => decide ((!(slot entries i).empty) = true)) (List.range n)).length = _
  simp only [Bool.decide_eq_true, Function.comp_def]

/-- The items of the array. -/
theorem has_view_iff {n : Nat} {entries : Array Entry} (size : entries.size = n) {x : Item} :
    Has n (view entries) x ↔ ∃ e ∈ entries.toList, e.empty = false ∧ e.item = x := by
  constructor
  · rintro ⟨i, c, hi, at_i, rfl⟩
    obtain ⟨occupied, -, item⟩ := occupied_of_view at_i
    refine ⟨slot entries i, ?_, occupied, item⟩
    unfold slot
    rw [Array.getD_eq_getD_getElem?, Array.getElem?_eq_getElem (by omega)]
    simp
  · rintro ⟨e, mem, occupied, rfl⟩
    obtain ⟨i, hi, at_i⟩ := List.mem_iff_getElem.mp mem
    have hi' : i < entries.size := by simpa using hi
    have slot_i : slot entries i = e := by
      unfold slot
      rw [Array.getD_eq_getD_getElem?, Array.getElem?_eq_getElem hi']
      simpa using at_i
    exact ⟨i, ⟨e.dib, e.item⟩, by omega, by rw [view, slot_i, occupied]; rfl, rfl⟩

/-- One old entry goes into the new table. -/
theorem growStep_spec (growing : Growing m) (room : m.size < m.capacity) {old : Entry}
    (occupied : old.empty = false) (hashed : old.hash = hash old.key)
    (fresh : ∀ x, Has m.capacity (view m.entries) x → x.key ≠ old.key) :
    ∃ m', growStep m old = some m' ∧ Growing m' ∧ m'.capacity = m.capacity ∧
      m'.size = m.size + 1 ∧ ∀ x, Has m'.capacity (view m'.entries) x ↔
        x = old.item ∨ Has m.capacity (view m.entries) x := by
  have masks := growing.masks
  have start : old.hash.toNat &&& m.mask < m.capacity := by
    rw [masks]
    exact Nat.mod_lt _ (by omega)
  obtain ⟨free, hfree, gap⟩ := exists_free (T := view m.entries) (n := m.capacity)
    (by rw [growing.counted]; exact room)
  have inc : Incoming m.capacity m.entries (old.hash.toNat &&& m.mask) { old with dib := 0 } := by
    refine ⟨growing.slots, ?_, Or.inl rfl, hashed, fresh⟩
    rw [masks]
    rfl
  obtain ⟨entries', run, slots, contents, grown⟩ :=
    growInsert_spec masks hfree inc start gap (distance_lt start _)
  refine ⟨{ m with entries := entries', size := m.size + 1 }, ?_, ⟨growing.mask, growing.power,
    slots, ?_⟩, rfl, rfl, contents⟩
  · simp [growStep, occupied, run]
  · rw [← growing.counted]
    exact grown

theorem growLoop_spec (olds : List Entry) (growing : Growing m)
    (room : m.size + olds.length < m.capacity)
    (hashed : ∀ e ∈ olds, e.empty = false → e.hash = hash e.key)
    (fresh : ∀ e ∈ olds, e.empty = false →
      ∀ x, Has m.capacity (view m.entries) x → x.key ≠ e.key)
    (apart : olds.Pairwise fun a b => a.empty = false → b.empty = false → a.key ≠ b.key) :
    ∃ m', olds.foldlM growStep m = some m' ∧ Growing m' ∧ m'.capacity = m.capacity ∧
      m'.size = m.size + olds.countP (fun e => !e.empty) ∧
      ∀ x, Has m'.capacity (view m'.entries) x ↔
        (∃ e ∈ olds, e.empty = false ∧ e.item = x) ∨ Has m.capacity (view m.entries) x := by
  induction olds generalizing m with
  | nil => exact ⟨m, rfl, growing, rfl, rfl, by simp⟩
  | cons old olds ih =>
    rw [List.length_cons] at room
    obtain ⟨headApart, apart⟩ := List.pairwise_cons.mp apart
    have hashed' : ∀ e ∈ olds, e.empty = false → e.hash = hash e.key :=
      fun e he => hashed e (List.mem_cons_of_mem _ he)
    by_cases empty : old.empty = true
    · have skip : growStep m old = some m := by simp [growStep, empty]
      obtain ⟨m', run, growing', capacity', size', contents⟩ := ih growing (by omega) hashed'
        (fun e he => fresh e (List.mem_cons_of_mem _ he)) apart
      refine ⟨m', by simp [skip, run], growing', capacity', by simp [size', empty], ?_⟩
      intro x
      rw [contents]
      simp [empty]
    · have occupied : old.empty = false := by simpa using empty
      obtain ⟨m₁, step, growing₁, capacity₁, size₁, contents₁⟩ := growStep_spec growing (by omega)
        occupied (hashed old (by simp) occupied) (fresh old (by simp) occupied)
      have fresh₁ : ∀ e ∈ olds, e.empty = false →
          ∀ x, Has m₁.capacity (view m₁.entries) x → x.key ≠ e.key := by
        intro e he occ x hx
        rcases (contents₁ x).mp hx with rfl | held
        · exact headApart e he occupied occ
        · exact fresh e (List.mem_cons_of_mem _ he) occ x held
      obtain ⟨m', run, growing', capacity', size', contents⟩ :=
        ih growing₁ (by rw [capacity₁, size₁]; omega) hashed' fresh₁ apart
      refine ⟨m', by simp [step, run], growing', by rw [capacity', capacity₁], ?_, ?_⟩
      · rw [size', size₁, List.countP_cons_of_pos (by simp [occupied])]
        omega
      · intro x
        rw [contents, contents₁]
        simp only [List.mem_cons, exists_eq_or_imp, occupied, true_and, eq_comm (a := x)]
        rw [or_left_comm, or_assoc]

theorem slotsOk_clearAll (n : Nat) : SlotsOk n (clearAll n) ∧
    (∀ x, ¬ Has n (view (clearAll n)) x) ∧ load n (view (clearAll n)) = 0 := by
  have blank : view (clearAll n) = fun _ => none := by
    funext i
    apply view_of_empty
    unfold slot clearAll
    by_cases hi : i < n <;> simp [hi] <;> rfl
  have nothing : ∀ x, ¬ Has n (view (clearAll n)) x := by
    rintro x ⟨i, c, -, at_i, -⟩
    rw [blank] at at_i
    cases at_i
  refine ⟨⟨by simp [clearAll], ?_, ?_, ?_⟩, nothing, ?_⟩
  · rw [blank]
    exact ordered_empty
  · intro i j c c' _ _ at_i
    rw [blank] at at_i
    cases at_i
  · intro x hx
    exact absurd hx (nothing x)
  · rw [blank]
    exact load_empty

/-- Distinct keys along the array. -/
theorem SlotsOk.pairwise {n : Nat} {entries : Array Entry} (slots : SlotsOk n entries) :
    entries.toList.Pairwise fun a b => a.empty = false → b.empty = false → a.key ≠ b.key := by
  rw [List.pairwise_iff_getElem]
  intro i j hi hj less occ_i occ_j same
  have hi' : i < entries.size := by simpa using hi
  have hj' : j < entries.size := by simpa using hj
  have slot_i : slot entries i = entries[i] := by simp [slot, hi']
  have slot_j : slot entries j = entries[j] := by simp [slot, hj']
  rw [Array.getElem_toList] at occ_i occ_j same
  rw [Array.getElem_toList] at same
  rw [← slot_i] at occ_i same
  rw [← slot_j] at occ_j same
  have at_i := view_of_occupied occ_i
  have at_j := view_of_occupied occ_j
  have one := slots.distinct i j _ _ (by rw [← slots.size]; exact hi') (by rw [← slots.size]; exact hj')
    at_i at_j same
  omega

/-- `grow` doubles the ring and keeps every binding. -/
theorem Probed.grow (probed : Probed m) :
    ∃ m', m.grow = some m' ∧ Growing m' ∧ m'.capacity = m.capacity * 2 ∧ m'.size = m.size ∧
      ∀ k v, Binds m' k v ↔ Binds m k v := by
  obtain ⟨slots₀, nothing, load₀⟩ := slotsOk_clearAll (m.capacity * 2)
  have gap := probed.gap
  have slots := probed.slots
  obtain ⟨e, he⟩ := probed.power
  have count := load_view slots.size
  rw [probed.counted] at count
  obtain ⟨m', run, growing, capacity', size', contents⟩ := growLoop_spec
    (m := { entries := clearAll (m.capacity * 2), size := 0, capacity := m.capacity * 2,
            mask := m.capacity * 2 - 1 }) m.entries.toList
    ⟨by dsimp only; omega, ⟨e + 1, by dsimp only; rw [he, Nat.pow_succ]⟩, slots₀, load₀⟩
    (by simp [slots.size]; omega)
    (fun e he occ => slots.hashed e.item ((has_view_iff slots.size).mpr ⟨e, he, occ, rfl⟩))
    (fun e _ _ x hx => absurd hx (nothing x)) slots.pairwise
  dsimp only at capacity' size' contents
  refine ⟨m', run, growing, capacity', by omega, ?_⟩
  intro k v
  unfold Binds
  rw [contents, ← has_view_iff slots.size]
  simp [nothing]

/-! ### set -/

/-- The probe loop of `set` in a table with room for one more. -/
theorem Probed.setLoop (probed : Probed m) (room : m.size + 1 < m.capacity) (k v : Bytes) :
    ∃ entries inserted, RobinHoodMap.setLoop m.mask (hash k) m.capacity ((hash k).toNat &&& m.mask)
        ⟨hash k, 0, k, v⟩ m.entries = some (entries, inserted) ∧
      Probed { m with
        entries := entries, size := if inserted then m.size + 1 else m.size } ∧
      (inserted = true ↔ ∀ w, ¬ Binds m k w) ∧
      ∀ k' v', Has m.capacity (view entries) ⟨hash k', k', v'⟩ ↔
        if k' = k then v' = v else Binds m k' v' := by
  have gap := probed.gap
  rcases probed.find_cases k with ⟨j, c, hj, at_j, rfl, bound, near⟩ | absent
  · obtain ⟨slots, contents, same⟩ := probed.slots.setVal v hj at_j
    have here : ((hash c.item.key).toNat + 0) % m.capacity = (hash c.item.key).toNat &&& m.mask := by
      rw [probed.masks, Nat.add_zero]
    have enough : c.dib - 0 < m.capacity := near
    have run := setLoop_present probed.masks probed.slots v hj at_j (Nat.zero_le _) here enough
    refine ⟨_, false, run, ⟨⟨probed.mask, probed.power, slots, ?_⟩, ?_⟩, ?_, ?_⟩
    · dsimp only
      rw [same, probed.counted]
      rfl
    · simpa using gap
    · simp only [Bool.false_eq_true, false_iff, not_forall, not_not]
      exact ⟨_, bound⟩
    · intro k' v'
      have hashed := probed.slots.hashed c.item ⟨j, c, hj, at_j, rfl⟩
      rw [contents]
      split
      · rename_i key
        simp [Item.ext_iff, key, hashed]
      · rename_i other
        simp [Item.ext_iff, other, Binds]
  · obtain ⟨free, hfree, open_slot⟩ := probed.free
    have start := probed.home_lt k
    have inc : Incoming m.capacity m.entries ((hash k).toNat &&& m.mask) ⟨hash k, 0, k, v⟩ := by
      refine ⟨probed.slots, ?_, Or.inl rfl, rfl, absent⟩
      rw [probed.masks]
      rfl
    obtain ⟨entries, run, slots, contents, grown⟩ :=
      growInsert_spec probed.masks hfree inc start open_slot (distance_lt start _)
    refine ⟨entries, true, by rw [setLoop_fresh probed.masks inc start, run]; rfl,
      ⟨⟨probed.mask, probed.power, slots, ?_⟩, ?_⟩, ?_, ?_⟩
    · dsimp only
      rw [grown, probed.counted]
      rfl
    · simpa using room
    · simp only [true_iff]
      exact fun w => absent_of_fresh absent
    · intro k' v'
      rw [contents]
      split
      · rename_i key
        subst key
        simp [Entry.item, Item.ext_iff]
        exact fun bound => absurd rfl (absent _ bound)
      · rename_i other
        simp [Entry.item, Item.ext_iff, other, Binds]

theorem set_spec (wf : WellFormed m) (k v : Bytes) :
    ∃ m' inserted, m.set k v = some (m', inserted) ∧ WellFormed m' ∧
      (inserted = true ↔ ∀ w, ¬ Binds m k w) ∧
      m'.size = (if inserted then m.size + 1 else m.size) ∧
      ∀ k' v', Binds m' k' v' ↔ if k' = k then v' = v else Binds m k' v' := by
  have two := wf.two
  have loaded := wf.loaded
  obtain ⟨m₁, grown, growing₁, larger, room, size₁, binds₁⟩ : ∃ m₁,
      (if 3 * m.capacity < 4 * (m.size + 1) then m.grow else some m) = some m₁ ∧
      Growing m₁ ∧ m.capacity ≤ m₁.capacity ∧ 4 * (m₁.size + 1) ≤ 3 * m₁.capacity ∧
      m₁.size = m.size ∧ ∀ k v, Binds m₁ k v ↔ Binds m k v := by
    split
    · obtain ⟨m₁, run, growing₁, capacity₁, size₁, binds₁⟩ := wf.probed.grow
      exact ⟨m₁, run, growing₁, by omega, by omega, size₁, binds₁⟩
    · exact ⟨m, rfl, wf.probed.toGrowing, le_rfl, by omega, rfl, fun _ _ => Iff.rfl⟩
  have probed₁ : Probed m₁ := ⟨growing₁, by omega⟩
  obtain ⟨entries, inserted, run, probed', isNew, contents⟩ := probed₁.setLoop (by omega) k v
  have size' : (if inserted then m₁.size + 1 else m₁.size) ≤ m₁.size + 1 := by split <;> omega
  refine ⟨_, inserted, ?_, ⟨probed'.mask, probed'.power, by dsimp only; omega, probed'.slots,
    probed'.counted, by dsimp only; omega⟩, ?_, ?_, ?_⟩
  · simp [set, grown, run]
  · rw [isNew]
    simp only [binds₁]
  · rw [size₁]
  · intro k' v'
    rw [← binds₁]
    exact contents k' v'

/-! ### del -/

theorem Probed.del (probed : Probed m) (k : Bytes) :
    ∃ m' deleted, m.del k = some (m', deleted) ∧ Probed m' ∧ m'.capacity = m.capacity ∧
      (deleted = true ↔ ∃ w, Binds m k w) ∧
      m'.size = (if deleted then m.size - 1 else m.size) ∧
      ∀ k' v', Binds m' k' v' ↔ k' ≠ k ∧ Binds m k' v' := by
  rcases probed.find_cases k with ⟨j, c, hj, at_j, rfl, bound, near⟩ | absent
  · obtain ⟨free, hfree, gap⟩ := probed.free
    obtain ⟨entries, run, size, ordered, distinct, contents, fewer⟩ := eraseAt_spec probed.masks hfree
      hj probed.slots.size probed.slots.ordered (probed.slots.distinct.except j) at_j gap
      (distance_lt hj free).le
    have others : ∀ x, Has m.capacity (view entries) x ↔
        Has m.capacity (view m.entries) x ∧ x.key ≠ c.item.key := by
      intro x
      rw [contents]
      constructor
      · rintro ⟨i, c', hi, hij, at_i, rfl⟩
        refine ⟨⟨i, c', hi, at_i, rfl⟩, fun same => hij ?_⟩
        exact probed.slots.distinct i j c' c hi hj at_i at_j same
      · rintro ⟨held, other⟩
        rcases (has_of_occupied hj at_j).mp held with rfl | rest
        · exact absurd rfl other
        · exact rest
    have counted := probed.counted
    have room := probed.gap
    refine ⟨{ m with entries := entries, size := m.size - 1 }, true, ?_, ⟨⟨probed.mask, probed.power,
      ⟨size, ordered, distinct, ?_⟩, ?_⟩, ?_⟩, rfl, ?_, rfl, ?_⟩
    · simp [RobinHoodMap.del, probed.findLoop_eq hj at_j near, run]
    · intro x hx
      exact probed.slots.hashed x ((others x).mp hx).1
    · dsimp only
      omega
    · dsimp only
      omega
    · simp only [true_iff]
      exact ⟨_, bound⟩
    · intro k' v'
      unfold Binds
      rw [others]
      tauto
  · refine ⟨m, false, by simp [RobinHoodMap.del, probed.findLoop_none absent], probed, rfl, ?_, rfl, ?_⟩
    · simp only [Bool.false_eq_true, false_iff, not_exists]
      exact fun w => absent_of_fresh absent
    · intro k' v'
      constructor
      · intro bound
        exact ⟨absent _ bound, bound⟩
      · exact fun h => h.2

theorem del_spec (wf : WellFormed m) (k : Bytes) :
    ∃ m' deleted, m.del k = some (m', deleted) ∧ WellFormed m' ∧
      (deleted = true ↔ ∃ w, Binds m k w) ∧
      m'.size = (if deleted then m.size - 1 else m.size) ∧
      ∀ k' v', Binds m' k' v' ↔ k' ≠ k ∧ Binds m k' v' := by
  have two := wf.two
  have loaded := wf.loaded
  obtain ⟨m', deleted, run, probed', capacity', wasThere, size', binds⟩ := wf.probed.del k
  have fewer : m'.size ≤ m.size := by
    rw [size']
    split <;> omega
  exact ⟨m', deleted, run, ⟨probed'.mask, probed'.power, by omega, probed'.slots, probed'.counted,
    by omega⟩, wasThere, size', binds⟩

end

/-! ### Runs -/

theorem wellFormed_empty : WellFormed empty ∧ ∀ k v, ¬ Binds empty k v := by
  obtain ⟨slots, nothing, load₀⟩ := slotsOk_clearAll 16
  exact ⟨⟨rfl, ⟨4, rfl⟩, by decide, slots, load₀, by decide⟩, fun k v => nothing _⟩

/-- The same call on the ideal finite map. -/
def idealCall (A : UnorderedMap Bytes Bytes) : Call → UnorderedMap Bytes Bytes × Reply
  | .set key val =>
    (A.set key val, ⟨(A.find key).isNone, none, UnorderedMap.size (A.set key val)⟩)
  | .get key => (A, ⟨(A.find key).isSome, A.find key, A.size⟩)
  | .del key => (A.erase key, ⟨(A.find key).isSome, none, UnorderedMap.size (A.erase key)⟩)

/-- The same sequence of calls on the ideal finite map. -/
def idealRun : List Call → UnorderedMap Bytes Bytes → List Reply
  | [], _ => []
  | c :: cs, A => (idealCall A c).2 :: idealRun cs (idealCall A c).1

/-- The table implements the finite map `A`. -/
structure Implements (m : RobinHoodMap) (A : UnorderedMap Bytes Bytes) : Prop where
  wf : WellFormed m
  binds : ∀ k v, Binds m k v ↔ A.find k = some v
  size : m.size = A.size

theorem Implements.hasBindings {m : RobinHoodMap} {A : UnorderedMap Bytes Bytes}
    (impl : Implements m A) : A.HasBindings (Binds m) m.size := ⟨impl.binds, impl.size⟩

/-- One call on the table answers as the finite map does and leaves them in step. -/
theorem call_refines {m : RobinHoodMap} {A : UnorderedMap Bytes Bytes} (impl : Implements m A)
    (c : Call) :
    ∃ m', m.call c = some (m', (idealCall A c).2) ∧ Implements m' (idealCall A c).1 := by
  cases c with
  | set key val =>
    obtain ⟨m', inserted, step, wf, isNew, size, binds⟩ := set_spec impl.wf key val
    obtain ⟨flag, has⟩ := impl.hasBindings.set isNew size binds
    exact ⟨m', by simp [call, step, idealCall, flag, has.size], wf, has.binds, has.size⟩
  | get key =>
    obtain ⟨r, step, found⟩ := get_spec impl.wf key
    have value : r = A.find key := impl.hasBindings.find found
    exact ⟨m, by simp [call, step, idealCall, value, impl.size], impl⟩
  | del key =>
    obtain ⟨m', deleted, step, wf, wasThere, size, binds⟩ := del_spec impl.wf key
    obtain ⟨flag, has⟩ := impl.hasBindings.erase wasThere size binds
    exact ⟨m', by simp [call, step, idealCall, flag, has.size], wf, has.binds, has.size⟩

theorem run_refines {m : RobinHoodMap} {A : UnorderedMap Bytes Bytes} (impl : Implements m A)
    (cs : List Call) : run cs m = some (idealRun cs A) := by
  induction cs generalizing m A with
  | nil => rfl
  | cons c cs ih =>
    obtain ⟨m', step, impl'⟩ := call_refines impl c
    simp [run, idealRun, step, ih impl']

theorem implements_empty : Implements empty ∅ := by
  refine ⟨wellFormed_empty.1, ?_, rfl⟩
  intro k v
  simp [wellFormed_empty.2]

/-- A default-constructed table answers every sequence of calls as the ideal finite map. -/
theorem run_empty (cs : List Call) : run cs empty = some (idealRun cs ∅) :=
  run_refines implements_empty cs

end FastGraph.RobinHoodMap
