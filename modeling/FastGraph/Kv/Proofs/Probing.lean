import FastGraph.Kv.Proofs.Hashmap32
import FastGraph.Misc.LittleEndian

/-!
# Which runs of the key-value table end

A run of calls on the table in machine words that never finds `2 ^ 32` slots overloaded keeps
the order of the slots, and every probe loop of every further call ends. Beyond `2 ^ 32` slots
the mask, a `uint32_t`, reaches only the slots below: a table with a key in each of them still
counts as half empty, and the next new key goes round for ever.
-/

namespace FastGraph.RobinHoodMap32
open RobinHood
open RobinHoodMap (Binds Call hash idealCall idealRun view)

/-- Every loop of the call ends. -/
def Ends (m : RobinHoodMap32) (c : Call) : Prop := ∃ fuel m', m.call fuel c = some m'

/-- A run from the default constructor whose calls all end, each of them one that `ok` admits. -/
inductive Reaches (ok : RobinHoodMap32 → Call → Prop) : List Call → RobinHoodMap32 → Prop
  | start : Reaches ok [] empty
  | step {cs : List Call} {m m' : RobinHoodMap32} {c : Call} {fuel : Nat} :
      Reaches ok cs m → ok m c → m.call fuel c = some m' → Reaches ok (cs ++ [c]) m'

/-- The slot is one of the block, and occupied. -/
def Occupied (m : RobinHoodMap32) (i : Nat) : Prop :=
  i < m.capacity ∧ (slot m.entries i).empty = false

/-- What the table promises between calls. -/
structure Sound (m : RobinHoodMap32) : Prop where
  position : ∀ i, m.Occupied i → (slot m.entries i).dib.toNat =
    distance m.capacity ((slot m.entries i).hash &&& m.mask).toNat i
  chained : ∀ i, m.Occupied i → 0 < (slot m.entries i).dib.toNat →
    ∃ j, m.Occupied j ∧ (j + 1) % m.capacity = i ∧
      (slot m.entries i).dib.toNat - 1 ≤ (slot m.entries j).dib.toNat
  once : ∀ i j, m.Occupied i → m.Occupied j →
    (slot m.entries i).key = (slot m.entries j).key → i = j
  counted : m.size =
    ((Finset.range m.capacity).filter fun i => (slot m.entries i).empty = false).card
  gap : ∃ i < m.capacity, (slot m.entries i).empty

/-- The call does not grow a table of `2 ^ 32` slots or more. -/
def Within (m : RobinHoodMap32) : Call → Prop
  | .set _ _ => m.overloaded → m.capacity < 2 ^ 32
  | .get _ => True
  | .del _ => True

/-- A table of at most `2 ^ 32` slots that is one in plain numbers. -/
structure Kept (m : RobinHoodMap32) : Prop where
  probed : RobinHoodMap.Probed m.plain
  small : m.capacity ≤ 2 ^ 32

section
variable {m m' : RobinHoodMap32} {c : Call} {fuel fuel' : Nat}

/-! ### What a kept table promises -/

theorem plain_empty (m : RobinHoodMap32) (i : Nat) :
    (RobinHoodMap.slot m.plain.entries i).empty = (slot m.entries i).empty := by
  rw [plain, slot_plain]
  rfl

/-- An occupied slot, as a slot of a Robin Hood table. -/
theorem view_plain {i : Nat} (occupied : (slot m.entries i).empty = false) :
    view m.plain.entries i =
      some ⟨(slot m.entries i).dib.toNat, (slot m.entries i).plain.item⟩ := by
  have at_i := RobinHoodMap.view_of_occupied ((plain_empty m i).trans occupied)
  rw [at_i, plain, slot_plain]
  rfl

theorem view_isSome {i : Nat} :
    (view m.plain.entries i).isSome ↔ (slot m.entries i).empty = false := by
  constructor
  · intro some
    obtain ⟨c, at_i⟩ := Option.isSome_iff_exists.mp some
    rw [← plain_empty]
    exact (RobinHoodMap.occupied_of_view at_i).1
  · intro occupied
    rw [view_plain occupied]
    rfl

theorem Kept.sound (kept : Kept m) : Sound m where
  position := by
    rintro i ⟨hi, occupied⟩
    have at_i := view_plain occupied
    obtain ⟨free, hfree, gap⟩ := kept.probed.free
    have ordered := kept.probed.slots.ordered
    have far := ordered.dib_eq_distance hi at_i (ordered.dib_lt hi at_i hfree gap)
    have home : ((slot m.entries i).hash &&& m.mask).toNat =
        (slot m.entries i).hash.toNat % m.capacity := by
      rw [UInt32.toNat_and]
      exact kept.probed.masks _
    rw [home]
    exact far
  chained := by
    rintro i ⟨hi, occupied⟩ away
    obtain ⟨j, c, hj, before, at_j, near⟩ :=
      kept.probed.slots.ordered.chain i _ hi (view_plain occupied) away
    have taken := view_isSome.mp (Option.isSome_of_eq_some at_j)
    rw [view_plain taken] at at_j
    cases at_j
    exact ⟨j, ⟨hj, taken⟩, before, Nat.sub_le_of_le_add near⟩
  once := by
    rintro i j ⟨hi, occupied_i⟩ ⟨hj, occupied_j⟩ same
    exact kept.probed.slots.distinct i j _ _ hi hj (view_plain occupied_i)
      (view_plain occupied_j) same
  counted := by
    have counted := kept.probed.counted
    unfold load at counted
    rw [Finset.filter_congr fun i _ => view_isSome] at counted
    exact counted.symm
  gap := by
    obtain ⟨free, hfree, gap⟩ := kept.probed.free
    refine ⟨free, hfree, ?_⟩
    by_contra occupied
    rw [view_plain (Bool.eq_false_of_not_eq_true occupied)] at gap
    cases gap

/-! ### What a call does to a kept table -/

theorem empty_plain : empty.plain = RobinHoodMap.empty := by
  unfold plain empty ofInitial
  dsimp only
  rw [plain_clearAll]
  rfl

theorem kept_empty : Kept empty := by
  refine ⟨?_, by decide⟩
  rw [empty_plain]
  exact RobinHoodMap.wellFormed_empty.1.probed

/-- A table that is not overloaded has room for one more. -/
theorem Kept.room (kept : Kept m) (light : m.overloaded = false) : m.size + 1 < m.capacity := by
  have rounded := le_roundNearest (show 0 < 24 by decide) (m.size + 1)
  have gap : m.size < m.capacity := kept.probed.gap
  unfold overloaded at light
  have loaded := of_decide_eq_false light
  omega

/-- The table that `set` puts the key into. -/
theorem Kept.roomy (kept : Kept m) (fits : m.overloaded → m.capacity < 2 ^ 32) :
    ∃ m₁, (if m.overloaded then m.grow (m.capacity * 2) else some m) = some m₁ ∧ Kept m₁ ∧
      m₁.size + 1 < m₁.capacity ∧ m₁.capacity ≤ m.capacity * 2 ∧ m₁.size = m.size ∧
      ∀ k v, Binds m₁.plain k v ↔ Binds m.plain k v := by
  have gap : m.size < m.capacity := kept.probed.gap
  by_cases heavy : m.overloaded = true
  · have small : m.capacity * 2 ≤ 2 ^ 32 := by
      obtain ⟨e, power⟩ := kept.probed.power
      have power : m.capacity = 2 ^ e := power
      have below := fits heavy
      rw [power] at below ⊢
      have bits : e < 32 := (Nat.pow_lt_pow_iff_right (by decide)).mp below
      rw [← Nat.pow_succ]
      exact Nat.pow_le_pow_right (by decide) bits
    obtain ⟨p, run, growing, capacity, size, binds⟩ := kept.probed.grow
    rw [grow_plain (by omega) small] at run
    obtain ⟨m₁, grown, rfl⟩ := Option.map_eq_some_iff.mp run
    have capacity : m₁.capacity = m.capacity * 2 := capacity
    have size : m₁.size = m.size := size
    have gap₁ : m₁.size < m₁.capacity := by omega
    exact ⟨m₁, by rw [if_pos heavy, grown], ⟨⟨growing, gap₁⟩, by omega⟩, by omega, by omega, size,
      binds⟩
  · have light := Bool.eq_false_of_not_eq_true heavy
    exact ⟨m, by rw [if_neg heavy], kept, kept.room light, by omega, rfl, fun _ _ => Iff.rfl⟩

theorem Kept.set (kept : Kept m) (fits : m.overloaded → m.capacity < 2 ^ 32) (key val : Bytes) :
    ∃ r, m.set (m.capacity * 2) key val = some r ∧ Kept r.1 ∧
      (r.2 = true ↔ ∀ w, ¬ Binds m.plain key w) ∧
      r.1.size = (if r.2 then m.size + 1 else m.size) ∧
      ∀ k v, Binds r.1.plain k v ↔ if k = key then v = val else Binds m.plain k v := by
  obtain ⟨m₁, roomy, kept₁, room, turns, size₁, binds₁⟩ := kept.roomy fits
  obtain ⟨entries, inserted, run, probed, isNew, contents⟩ := kept₁.probed.setLoop room key val
  rw [put_plain kept₁.small] at run
  obtain ⟨⟨entries, inserted⟩, placed, same⟩ := Option.map_eq_some_iff.mp run
  cases same
  refine ⟨_, Option.bind_eq_some_iff.mpr ⟨m₁, roomy, Option.bind_eq_some_iff.mpr
    ⟨(entries, inserted), setLoop_mono turns placed, rfl⟩⟩, ⟨probed, kept₁.small⟩, ?_, ?_, ?_⟩
  · simpa only [binds₁] using isNew
  · rw [← size₁]
  · intro k v
    rw [← binds₁]
    exact contents k v

theorem Kept.get (kept : Kept m) (key : Bytes) :
    ∃ r, m.get m.capacity key = some r ∧ ∀ v, r = some v ↔ Binds m.plain key v := by
  obtain ⟨r, found, value⟩ := kept.probed.get key
  rw [get_plain kept.small] at found
  exact ⟨r, found, value⟩

theorem Kept.del (kept : Kept m) (key : Bytes) :
    ∃ r, m.del m.capacity key = some r ∧ Kept r.1 ∧ (r.2 = true ↔ ∃ w, Binds m.plain key w) ∧
      r.1.size = (if r.2 then m.size - 1 else m.size) ∧
      ∀ k v, Binds r.1.plain k v ↔ k ≠ key ∧ Binds m.plain k v := by
  obtain ⟨p, deleted, run, probed, capacity, wasThere, size, binds⟩ := kept.probed.del key
  rw [del_plain kept.small] at run
  obtain ⟨r, erased, same⟩ := Option.map_eq_some_iff.mp run
  cases same
  have capacity : r.1.capacity = m.capacity := capacity
  exact ⟨r, erased, ⟨probed, capacity.trans_le kept.small⟩, wasThere, size, binds⟩

/-- A call within `2 ^ 32` slots ends, and keeps the table. -/
theorem Kept.call (kept : Kept m) (within : Within m c) :
    ∃ fuel m', m.call fuel c = some m' ∧ Kept m' := by
  cases c with
  | set key val =>
    obtain ⟨r, run, kept', -⟩ := kept.set within key val
    exact ⟨_, r.1, Option.map_eq_some_iff.mpr ⟨r, run, rfl⟩, kept'⟩
  | get key =>
    obtain ⟨r, run, -⟩ := kept.get key
    exact ⟨_, m, Option.map_eq_some_iff.mpr ⟨r, run, rfl⟩, kept⟩
  | del key =>
    obtain ⟨r, run, kept', -⟩ := kept.del key
    exact ⟨_, r.1, Option.map_eq_some_iff.mpr ⟨r, run, rfl⟩, kept'⟩

/-! ### Runs within `2 ^ 32` slots -/

theorem call_mono (more : fuel ≤ fuel') (done : m.call fuel c = some m') :
    m.call fuel' c = some m' := by
  cases c with
  | set key val =>
    obtain ⟨r, run, same⟩ := Option.map_eq_some_iff.mp done
    exact Option.map_eq_some_iff.mpr ⟨r, set_mono more run, same⟩
  | get key =>
    obtain ⟨r, run, same⟩ := Option.map_eq_some_iff.mp done
    exact Option.map_eq_some_iff.mpr ⟨r, get_mono more run, same⟩
  | del key =>
    obtain ⟨r, run, same⟩ := Option.map_eq_some_iff.mp done
    exact Option.map_eq_some_iff.mpr ⟨r, del_mono more run, same⟩

/-- A call leaves one table, whatever the number of turns. -/
theorem call_unique {m'' : RobinHoodMap32} (one : m.call fuel c = some m')
    (two : m.call fuel' c = some m'') : m' = m'' := by
  have one := call_mono (Nat.le_max_left fuel fuel') one
  have two := call_mono (Nat.le_max_right fuel fuel') two
  exact Option.some.inj (one.symm.trans two)

theorem Reaches.kept {cs : List Call} (reached : Reaches Within cs m) : Kept m := by
  induction reached with
  | start => exact kept_empty
  | step _ within done ih =>
    obtain ⟨fuel, m', run, kept'⟩ := ih.call within
    rw [call_unique done run]
    exact kept'

instance : Decidable (Within m c) := by
  cases c with
  | set key val => exact inferInstanceAs (Decidable (m.overloaded → m.capacity < 2 ^ 32))
  | get key => exact inferInstanceAs (Decidable True)
  | del key => exact inferInstanceAs (Decidable True)

/-- A run that can be computed. -/
theorem Reaches.calls {cs cs' : List Call} (reached : Reaches Within cs m)
    (ran : cs'.foldlM (fun m c => if Within m c then m.call fuel c else none) m = some m') :
    Reaches Within (cs ++ cs') m' := by
  induction cs' generalizing cs m with
  | nil =>
    cases ran
    rw [List.append_nil]
    exact reached
  | cons c cs' ih =>
    rw [List.foldlM_cons] at ran
    obtain ⟨m₁, step, rest⟩ := Option.bind_eq_some_iff.mp ran
    split at step
    · rename_i within
      have next := ih (reached.step within step) rest
      rwa [List.append_assoc] at next
    · cases step

/-- Two keys that share a home slot, and eleven others with which the table grows; the first key
goes again, so that the other moves back. -/
def sharedHome : List Call :=
  (["k3", "k18", "k0", "k1", "k2", "k4", "k5", "k6", "k7", "k8", "k9", "k10", "k12"].map
    fun k => .set (str k) []) ++ [.del (str "k3")]

theorem calls_sharedHome :
    (sharedHome.foldlM (fun m c => if Within m c then m.call 32 c else none) empty).map
      (fun m => (m.size, m.capacity)) = some (12, 32) := by
  decide +kernel

/-- While no `set` finds `2 ^ 32` slots overloaded, the table is sound after every call, and every
further call of that kind ends. -/
theorem sound_within {cs : List Call} (reached : Reaches Within cs m) :
    Sound m ∧ ∀ c, Within m c → Ends m c := by
  refine ⟨reached.kept.sound, ?_⟩
  intro c within
  obtain ⟨fuel, m', run, -⟩ := reached.kept.call within
  exact ⟨fuel, m', run⟩

/-- After that run the table has 32 slots. -/
theorem sound_within_sharedHome : ∃ m, Reaches Within sharedHome m ∧
    (m.size, m.capacity) = (12, 32) ∧ Sound m ∧ ∀ c, Within m c → Ends m c := by
  obtain ⟨m, ran, sizes⟩ := Option.map_eq_some_iff.mp calls_sharedHome
  have reached := Reaches.start.calls ran
  exact ⟨m, reached, sizes, sound_within reached⟩

/-! ### What they answer -/

/-- No call of the sequence grows a table of `2 ^ 32` slots. -/
def StaysWithin (fuel : Nat) : List Call → RobinHoodMap32 → Prop
  | [], _ => True
  | c :: cs, m => Within m c ∧ ∀ m' reply, m.answer fuel c = some (m', reply) → StaysWithin fuel cs m'

/-- The table holds the finite map. -/
structure Represents (m : RobinHoodMap32) (A : UnorderedMap Bytes Bytes) : Prop where
  kept : Kept m
  binds : ∀ k v, Binds m.plain k v ↔ A.find k = some v
  size : m.size = A.size

theorem Represents.hasBindings {A : UnorderedMap Bytes Bytes} (rep : Represents m A) :
    A.HasBindings (Binds m.plain) m.size := ⟨rep.binds, rep.size⟩

/-- A call within `2 ^ 32` slots answers as the finite map does. -/
theorem Represents.answer {A : UnorderedMap Bytes Bytes} (rep : Represents m A) (within : Within m c)
    (turns : 2 ^ 33 ≤ fuel) :
    ∃ m', m.answer fuel c = some (m', (idealCall A c).2) ∧ Represents m' (idealCall A c).1 := by
  have small := rep.kept.small
  cases c with
  | set key val =>
    obtain ⟨r, run, kept, isNew, size, binds⟩ := rep.kept.set within key val
    obtain ⟨flag, has⟩ := rep.hasBindings.set isNew size binds
    refine ⟨r.1, ?_, kept, has.binds, has.size⟩
    simp [RobinHoodMap32.answer, set_mono (show m.capacity * 2 ≤ fuel by omega) run, idealCall, flag,
      has.size]
  | get key =>
    obtain ⟨r, run, found⟩ := rep.kept.get key
    have value : r = A.find key := rep.hasBindings.find found
    refine ⟨m, ?_, rep⟩
    simp [RobinHoodMap32.answer, get_mono (show m.capacity ≤ fuel by omega) run, idealCall, value,
      rep.size]
  | del key =>
    obtain ⟨r, run, kept, wasThere, size, binds⟩ := rep.kept.del key
    obtain ⟨flag, has⟩ := rep.hasBindings.erase wasThere size binds
    refine ⟨r.1, ?_, kept, has.binds, has.size⟩
    simp [RobinHoodMap32.answer, del_mono (show m.capacity ≤ fuel by omega) run, idealCall, flag,
      has.size]

theorem Represents.run {A : UnorderedMap Bytes Bytes} (rep : Represents m A) {cs : List Call}
    (within : StaysWithin fuel cs m) (turns : 2 ^ 33 ≤ fuel) : m.run fuel cs = some (idealRun cs A) := by
  induction cs generalizing m A with
  | nil => rfl
  | cons c cs ih =>
    obtain ⟨here, later⟩ := within
    obtain ⟨m', step, rep'⟩ := rep.answer here turns
    simp [RobinHoodMap32.run, idealRun, step, ih rep' (later _ _ step)]

/-- While no `set` finds `2 ^ 32` slots overloaded, the table in machine words, with the load test
in `float`, answers every sequence of calls as the table in plain numbers. -/
theorem run_plain {cs : List Call} (within : StaysWithin fuel cs empty) (turns : 2 ^ 33 ≤ fuel) :
    ∃ replies, empty.run fuel cs = some replies ∧
      RobinHoodMap.run cs RobinHoodMap.empty = some replies := by
  refine ⟨_, ?_, RobinHoodMap.run_refines RobinHoodMap.implements_empty cs⟩
  refine Represents.run ⟨kept_empty, ?_, rfl⟩ within turns
  intro k v
  rw [empty_plain]
  simp [RobinHoodMap.wellFormed_empty.2]

/-- The table after a call is the same whether or not one asks what the call returns. -/
theorem call_eq_answer (fuel : Nat) (m : RobinHoodMap32) (c : Call) :
    m.call fuel c = (m.answer fuel c).map Prod.fst := by
  cases c with
  | set key val =>
    simp only [call, RobinHoodMap32.answer]
    cases m.set fuel key val <;> rfl
  | get key =>
    simp only [call, RobinHoodMap32.answer]
    cases m.get fuel key <;> rfl
  | del key =>
    simp only [call, RobinHoodMap32.answer]
    cases m.del fuel key <;> rfl

/-- A sequence that can be computed stays within. -/
theorem staysWithin_of_calls {cs : List Call}
    (ran : cs.foldlM (fun m c => if Within m c then m.call fuel c else none) m = some m') :
    StaysWithin fuel' cs m := by
  induction cs generalizing m with
  | nil => trivial
  | cons c cs ih =>
    rw [List.foldlM_cons] at ran
    obtain ⟨m₁, step, rest⟩ := Option.bind_eq_some_iff.mp ran
    split at step
    · rename_i within
      refine ⟨within, ?_⟩
      intro m₂ reply answered
      have called : m.call fuel' c = some m₂ := by
        rw [call_eq_answer, answered]
        rfl
      rw [call_unique called step]
      exact ih rest
    · cases step

/-- The run of two keys that share a home slot is answered alike. -/
theorem run_plain_sharedHome : ∃ replies, empty.run (2 ^ 33) sharedHome = some replies ∧
    RobinHoodMap.run sharedHome RobinHoodMap.empty = some replies := by
  obtain ⟨m, ran, -⟩ := Option.map_eq_some_iff.mp calls_sharedHome
  exact run_plain (staysWithin_of_calls ran) le_rfl

end

/-! ### Beyond `2 ^ 32` slots -/

/-- An occupied slot holds the key. -/
def Stores (entries : Array Entry32) (key : Bytes) : Prop :=
  ∃ i, (slot entries i).empty = false ∧ (slot entries i).key = key

/-- What a probe loop does with an entry whatever the mask: its key is in, no key is lost, and the
slots that no word numbers stay as they are. -/
structure Adds (key : Bytes) (entries entries' : Array Entry32) : Prop where
  size : entries'.size = entries.size
  above : ∀ i, 2 ^ 32 ≤ i → slot entries' i = slot entries i
  stores : Stores entries' key
  keeps : ∀ k, Stores entries k → Stores entries' k

/-- The block has the capacity that the table counts, the mask stays in it, and the slots that no
word numbers are free. -/
structure Numbered (m : RobinHoodMap32) : Prop where
  size : m.entries.size = m.capacity
  mask : m.mask.toNat < m.capacity
  above : ∀ i, 2 ^ 32 ≤ i → (slot m.entries i).empty

section
variable {mask h idx : UInt32} {fuel : Nat} {entries entries' : Array Entry32}
  {incoming : Entry32} {m m' : RobinHoodMap32} {key val : Bytes}

theorem slot_set {i : Nat} (bound : i < entries.size) (j : Nat) (e : Entry32) :
    slot (entries.setIfInBounds i e) j = if j = i then e else slot entries j := by
  unfold slot
  by_cases same : j = i
  · subst same
    simp [bound]
  · simp [Array.getElem?_setIfInBounds_ne (Ne.symm same), same]

theorem above_set (bound : idx.toNat < entries.size) (e : Entry32) (i : Nat) (high : 2 ^ 32 ≤ i) :
    slot (entries.setIfInBounds idx.toNat e) i = slot entries i := by
  have low := idx.toNat_lt
  rw [slot_set bound, if_neg (by omega)]

/-- A key is in after a write, or was in the slot that the write took. -/
theorem stores_set {i : Nat} {e : Entry32} (bound : i < entries.size)
    (stored : Stores entries key) :
    Stores (entries.setIfInBounds i e) key ∨
      (slot entries i).empty = false ∧ (slot entries i).key = key := by
  obtain ⟨j, occupied, here⟩ := stored
  by_cases same : j = i
  · subst same
    exact Or.inr ⟨occupied, here⟩
  · refine Or.inl ⟨j, ?_⟩
    rw [slot_set bound, if_neg same]
    exact ⟨occupied, here⟩

theorem stores_self {i : Nat} {e : Entry32} (bound : i < entries.size)
    (occupied : e.empty = false) : Stores (entries.setIfInBounds i e) e.key := by
  refine ⟨i, ?_⟩
  rw [slot_set bound, if_pos rfl]
  exact ⟨occupied, rfl⟩

/-- The entry goes into a free slot. -/
theorem adds_place (bound : idx.toNat < entries.size) (occupied : incoming.empty = false)
    (free : (slot entries idx.toNat).empty = true) :
    Adds incoming.key entries (entries.setIfInBounds idx.toNat incoming) where
  size := Array.size_setIfInBounds
  above := above_set bound incoming
  stores := stores_self bound occupied
  keeps := by
    intro k stored
    rcases stores_set bound stored with stored | ⟨taken, -⟩
    · exact stored
    · rw [free] at taken
      cases taken

/-- The entry takes the slot of another, which goes on. -/
theorem Adds.displace (bound : idx.toNat < entries.size) (occupied : incoming.empty = false)
    (rest : Adds (slot entries idx.toNat).key (entries.setIfInBounds idx.toNat incoming) entries') :
    Adds incoming.key entries entries' where
  size := rest.size.trans Array.size_setIfInBounds
  above i high := (rest.above i high).trans (above_set bound incoming i high)
  stores := rest.keeps _ (stores_self bound occupied)
  keeps := by
    intro k stored
    rcases stores_set bound stored with stored | ⟨-, rfl⟩
    · exact rest.keeps k stored
    · exact rest.stores

/-- The entry's key is found, and its slot takes the new value. -/
theorem adds_setVal (bound : idx.toNat < entries.size)
    (taken : (slot entries idx.toNat).empty = false) (same : (slot entries idx.toNat).key = key) :
    Adds key entries
      (entries.setIfInBounds idx.toNat { slot entries idx.toNat with val := val }) := by
  have stored := stores_self (e := { slot entries idx.toNat with val := val }) bound taken
  refine ⟨Array.size_setIfInBounds, above_set bound _, by rw [← same]; exact stored, ?_⟩
  intro k old
  rcases stores_set bound old with kept | ⟨-, rfl⟩
  · exact kept
  · exact stored

theorem masked_lt {n : Nat} (bound : mask.toNat < n) (x : UInt32) : (x &&& mask).toNat < n := by
  rw [UInt32.toNat_and]
  exact Nat.lt_of_le_of_lt Nat.and_le_right bound

/-- Whatever the mask, the loop of `grow` puts the entry in and loses none. -/
theorem growInsert_adds {n : Nat}
    (done : growInsert mask fuel idx incoming entries = some entries') (size : entries.size = n)
    (inside : mask.toNat < n) (bound : idx.toNat < n) (occupied : incoming.empty = false) :
    Adds incoming.key entries entries' := by
  induction fuel generalizing idx incoming entries with
  | zero => cases done
  | succ fuel ih =>
    rw [← size] at bound
    rw [growInsert] at done
    split at done
    · rename_i free
      cases done
      exact adds_place bound occupied free
    · rename_i taken
      split at done
      · apply Adds.displace bound occupied
        have rest := ih done (Array.size_setIfInBounds.trans size) (masked_lt inside _)
          (Bool.eq_false_of_not_eq_true taken)
        exact rest
      · have rest := ih done size (masked_lt inside _) occupied
        exact rest

theorem setLoop_adds {n : Nat} {inserted : Bool}
    (done : setLoop mask h fuel idx incoming entries = some (entries', inserted))
    (size : entries.size = n) (inside : mask.toNat < n) (bound : idx.toNat < n)
    (occupied : incoming.empty = false) :
    Adds incoming.key entries entries' := by
  induction fuel generalizing idx incoming entries with
  | zero => cases done
  | succ fuel ih =>
    rw [← size] at bound
    rw [setLoop] at done
    split at done
    · rename_i free
      cases done
      exact adds_place bound occupied free
    · rename_i taken
      split at done
      · rename_i hit
        cases done
        exact adds_setVal bound (Bool.eq_false_of_not_eq_true taken) hit.2
      · split at done
        · apply Adds.displace bound occupied
          have rest := ih done (Array.size_setIfInBounds.trans size) (masked_lt inside _)
            (Bool.eq_false_of_not_eq_true taken)
          exact rest
        · have rest := ih done size (masked_lt inside _) occupied
          exact rest

/-- Every key of one table is in another. -/
def Keeps (m m' : RobinHoodMap32) : Prop := ∀ k, Stores m.entries k → Stores m'.entries k

theorem Numbered.adds {size : Nat} (numbered : Numbered m) (added : Adds key m.entries entries') :
    Numbered { m with entries := entries', size := size } where
  size := added.size.trans numbered.size
  mask := numbered.mask
  above i high := by
    dsimp only
    rw [added.above i high]
    exact numbered.above i high

theorem growStep_numbered {old : Entry32} (numbered : Numbered m)
    (done : growStep fuel m old = some m') :
    Numbered m' ∧ Keeps m m' ∧ (old.empty = false → Stores m'.entries old.key) := by
  unfold growStep at done
  split at done
  · rename_i free
    cases done
    refine ⟨numbered, fun _ => id, ?_⟩
    rw [free]
    intro taken
    cases taken
  · rename_i taken
    obtain ⟨entries, moved, same⟩ := Option.bind_eq_some_iff.mp done
    cases same
    have added := growInsert_adds moved numbered.size numbered.mask (masked_lt numbered.mask _)
      (Bool.eq_false_of_not_eq_true taken)
    exact ⟨numbered.adds added, added.keeps, fun _ => added.stores⟩

theorem growLoop_numbered {olds : List Entry32} (numbered : Numbered m)
    (done : olds.foldlM (growStep fuel) m = some m') :
    Numbered m' ∧ Keeps m m' ∧ ∀ e ∈ olds, e.empty = false → Stores m'.entries e.key := by
  induction olds generalizing m with
  | nil =>
    cases done
    exact ⟨numbered, fun _ => id, by simp⟩
  | cons old olds ih =>
    rw [List.foldlM_cons] at done
    obtain ⟨m₁, step, rest⟩ := Option.bind_eq_some_iff.mp done
    obtain ⟨numbered₁, keeps₁, moved⟩ := growStep_numbered numbered step
    obtain ⟨numbered', keeps, stores⟩ := ih numbered₁ rest
    refine ⟨numbered', fun k stored => keeps k (keeps₁ k stored), ?_⟩
    intro e mem taken
    rcases List.mem_cons.mp mem with rfl | mem
    · exact keeps _ (moved taken)
    · exact stores e mem taken

theorem vacant_clearAll (n i : Nat) : slot (clearAll n) i = Entry32.vacant := by
  unfold slot clearAll
  by_cases hi : i < n <;> simp [hi]

theorem numbered_clearAll {n : Nat} (pos : 0 < n) :
    Numbered ⟨clearAll n, 0, n, UInt32.ofNat (n - 1)⟩ where
  size := Array.size_replicate
  mask := by
    dsimp only
    rw [UInt32.toNat_ofNat']
    have below := Nat.mod_le (n - 1) (2 ^ 32)
    omega
  above i _ := by
    dsimp only
    rw [vacant_clearAll]
    rfl

theorem grow_numbered (numbered : Numbered m) (done : m.grow fuel = some m') :
    Numbered m' ∧ Keeps m m' := by
  have pos := numbered.mask
  obtain ⟨numbered', -, stores⟩ := growLoop_numbered (numbered_clearAll (by omega)) done
  refine ⟨numbered', ?_⟩
  rintro k ⟨i, taken, rfl⟩
  apply stores _ _ taken
  unfold slot at taken ⊢
  rw [Array.getD_eq_getD_getElem?] at taken ⊢
  cases at_i : m.entries[i]? with
  | none =>
    rw [at_i] at taken
    cases taken
  | some e => exact Array.mem_toList_iff.mpr (Array.mem_of_getElem? at_i)

theorem set_numbered {r : RobinHoodMap32 × Bool} (numbered : Numbered m)
    (done : m.set fuel key val = some r) :
    Numbered r.1 ∧ Keeps m r.1 ∧ Stores r.1.entries key := by
  unfold set at done
  obtain ⟨m₁, roomy, rest⟩ := Option.bind_eq_some_iff.mp done
  obtain ⟨⟨entries, inserted⟩, placed, same⟩ := Option.bind_eq_some_iff.mp rest
  cases same
  have numbered₁ : Numbered m₁ ∧ Keeps m m₁ := by
    split at roomy
    · exact grow_numbered numbered roomy
    · cases roomy
      exact ⟨numbered, fun _ => id⟩
  obtain ⟨numbered₁, keeps₁⟩ := numbered₁
  have occupied : (⟨hash key, 0, key, val⟩ : Entry32).empty = false := by
    unfold Entry32.empty
    exact beq_eq_false_iff_ne.mpr (RobinHoodMap.hash_ne_empty key)
  have added := setLoop_adds placed numbered₁.size numbered₁.mask (masked_lt numbered₁.mask _)
    occupied
  exact ⟨numbered₁.adds added, fun k stored => added.keeps k (keeps₁ k stored), added.stores⟩

/-- Fewer slots than keys do not hold them all. -/
theorem not_stores_all {n : Nat} (low : ∀ i, (slot entries i).empty = false → i < n)
    (fits : n < 256 ^ 8) : ¬ ∀ k < n + 1, Stores entries (leBytes 8 k) := by
  intro all
  have at_key : ∀ k, ∃ i, k < n + 1 → (slot entries i).empty = false ∧
      (slot entries i).key = leBytes 8 k := by
    intro k
    by_cases some : k < n + 1
    · obtain ⟨i, stored⟩ := all k some
      exact ⟨i, fun _ => stored⟩
    · exact ⟨0, fun less => absurd less some⟩
  choose place at_key using at_key
  obtain ⟨j, hj, k, hk, other, same⟩ := Finset.exists_ne_map_eq_of_card_lt_of_maps_to
    (s := Finset.range (n + 1)) (t := Finset.range n) (f := place)
    (by rw [Finset.card_range, Finset.card_range]; exact Nat.lt_succ_self n)
    (fun k hk => Finset.mem_range.mpr (low _ (at_key k (Finset.mem_range.mp hk)).1))
  have hj := Finset.mem_range.mp hj
  have hk := Finset.mem_range.mp hk
  have keys : leBytes 8 j = leBytes 8 k := by
    rw [← (at_key j hj).2, ← (at_key k hk).2, same]
  apply other
  rw [← leNat_leBytes (show j < 256 ^ 8 by omega), keys, leNat_leBytes (by omega)]

/-- The calls that set `n` keys of eight bytes each. -/
def sets (n : Nat) : List Call := (List.range n).map fun i => .set (leBytes 8 i) []

theorem numbered_empty : Numbered empty := numbered_clearAll (by decide)

/-- As long as they end, the calls put every key below slot `2 ^ 32`. -/
theorem reaches_sets {n : Nat} (ends : ∀ k < n, ∀ m, Reaches (fun _ _ => True) (sets k) m →
      Ends m (.set (leBytes 8 k) [])) :
    ∃ m, Reaches (fun _ _ => True) (sets n) m ∧ Numbered m ∧
      ∀ k < n, Stores m.entries (leBytes 8 k) := by
  induction n with
  | zero => exact ⟨empty, Reaches.start, numbered_empty, by simp⟩
  | succ n ih =>
    obtain ⟨m, reached, numbered, stores⟩ := ih fun k less => ends k (by omega)
    obtain ⟨fuel, m', done⟩ := ends n (by omega) m reached
    have step : sets (n + 1) = sets n ++ [.set (leBytes 8 n) []] := by
      unfold sets
      rw [List.range_succ, List.map_append]
      rfl
    obtain ⟨r, run, rfl⟩ := Option.map_eq_some_iff.mp done
    obtain ⟨numbered', keeps, stored⟩ := set_numbered numbered run
    refine ⟨r.1, by rw [step]; exact reached.step trivial done, numbered', ?_⟩
    intro k less
    rcases Nat.lt_succ_iff_lt_or_eq.mp less with less | rfl
    · exact keeps _ (stores k less)
    · exact stored

/-- Of the calls that set `2 ^ 32 + 1` keys, one goes round for ever. -/
theorem not_ends_sets : ∃ n ≤ 2 ^ 32, ∃ m, Reaches (fun _ _ => True) (sets n) m ∧
    ¬ Ends m (.set (leBytes 8 n) []) := by
  by_contra all
  push Not at all
  obtain ⟨m, -, numbered, stores⟩ := reaches_sets (n := 2 ^ 32 + 1) fun k less m reached =>
    all k (by omega) m reached
  refine not_stores_all ?_ (by decide) stores
  intro i taken
  by_contra high
  rw [numbered.above i (by omega)] at taken
  cases taken

/-- Not every call ends on every table that the run of `2 ^ 32 + 1` new keys goes through. -/
theorem not_sound_sets : ¬ ∀ n ≤ 2 ^ 32, ∀ m, Reaches (fun _ _ => True) (sets n) m →
    Sound m ∧ ∀ c, Ends m c := by
  intro all
  obtain ⟨n, le, m, reached, spins⟩ := not_ends_sets
  exact spins ((all n le m reached).2 _)

end

end FastGraph.RobinHoodMap32
