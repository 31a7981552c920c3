import FastGraph.Kv.Hashmap32
import FastGraph.Kv.Proofs.Hashmap

/-!
# The table in machine words and in plain numbers

While the ring has at most `2 ^ 32` slots and no loop takes more turns than that, the words of
the source do not wrap: each loop returns what it returns in plain numbers. A loop that is done
returns the same however many turns it is allowed.
-/

namespace FastGraph

/-- The entry in plain numbers. -/
def Entry32.plain (e : Entry32) : Entry := ⟨e.hash, e.dib.toNat, e.key, e.val⟩

namespace RobinHoodMap32

/-- The entries in plain numbers. -/
def plainEntries (entries : Array Entry32) : Array Entry := entries.map Entry32.plain

/-- The table in plain numbers. -/
def plain (m : RobinHoodMap32) : RobinHoodMap :=
  ⟨plainEntries m.entries, m.size, m.capacity, m.mask.toNat⟩

section
variable {mask h idx dib : UInt32} {fuel : Nat} {entries : Array Entry32} {incoming : Entry32}
  {key : Bytes} {m : RobinHoodMap32}

theorem slot_plain (entries : Array Entry32) (i : Nat) :
    RobinHoodMap.slot (plainEntries entries) i = (slot entries i).plain := by
  unfold RobinHoodMap.slot slot plainEntries
  rw [Array.getD_eq_getD_getElem?, Array.getD_eq_getD_getElem?, Array.getElem?_map]
  cases entries[i]? <;> rfl

theorem plain_set (entries : Array Entry32) (i : Nat) (e : Entry32) :
    plainEntries (entries.setIfInBounds i e) = (plainEntries entries).setIfInBounds i e.plain :=
  Array.map_setIfInBounds

/-- The next slot number. -/
theorem next_plain (idx mask : UInt32) :
    ((idx + 1) &&& mask).toNat = (idx.toNat + 1) &&& mask.toNat := by
  have below : (idx.toNat + 1) &&& mask.toNat < 2 ^ 32 :=
    Nat.lt_of_le_of_lt Nat.and_le_right mask.toNat_lt
  rw [UInt32.toNat_and, UInt32.toNat_add, UInt32.toNat_one, ← Nat.mod_eq_of_lt below,
    Nat.and_mod_two_pow, Nat.mod_eq_of_lt mask.toNat_lt]

theorem dib_succ (room : dib.toNat + 1 < 2 ^ 32) : (dib + 1).toNat = dib.toNat + 1 := by
  rw [UInt32.toNat_add, UInt32.toNat_one, Nat.mod_eq_of_lt room]

/-- One turn less is left, one slot further from home. -/
theorem room_succ (room : dib.toNat + (fuel + 2) ≤ 2 ^ 32) :
    (dib + 1).toNat + (fuel + 1) ≤ 2 ^ 32 := by
  rw [dib_succ (by omega)]
  omega

/-- An entry one slot further from home. -/
theorem farther_plain {e : Entry32} (room : e.dib.toNat + 1 < 2 ^ 32) :
    ({ e with dib := e.dib + 1 } : Entry32).plain = { e.plain with dib := e.plain.dib + 1 } := by
  unfold Entry32.plain
  rw [dib_succ room]

/-- An entry one slot nearer to home. -/
theorem nearer_plain {e : Entry32} (away : e.dib ≠ 0) :
    ({ e with dib := e.dib - 1 } : Entry32).plain = { e.plain with dib := e.plain.dib - 1 } := by
  have pos : 1 ≤ e.dib := by
    rw [UInt32.le_iff_toNat_le, UInt32.toNat_one]
    exact Nat.pos_of_ne_zero fun zero => away (UInt32.toNat_inj.mp zero)
  unfold Entry32.plain
  rw [UInt32.toNat_sub_of_le _ _ pos, UInt32.toNat_one]

/-! ### Loops -/

/-- A distance in words is less than another when it is in plain numbers. -/
theorem dib_lt_iff {e e' : Entry32} : e.plain.dib < e'.plain.dib ↔ e.dib < e'.dib :=
  UInt32.lt_iff_toNat_lt.symm

theorem growInsert_plain (room : incoming.dib.toNat + fuel ≤ 2 ^ 32) :
    RobinHoodMap.growInsert mask.toNat fuel idx.toNat incoming.plain (plainEntries entries) =
      (growInsert mask fuel idx incoming entries).map plainEntries := by
  induction fuel generalizing idx incoming entries with
  | zero => rfl
  | succ fuel ih =>
    unfold RobinHoodMap.growInsert growInsert
    dsimp only
    rw [slot_plain]
    by_cases free : (slot entries idx.toNat).empty = true
    · rw [if_pos free, if_pos (by exact free), Option.map_some, plain_set]
    · rw [if_neg free, if_neg (by exact free)]
      cases fuel with
      | zero => split <;> split <;> rfl
      | succ fuel =>
        by_cases nearer : (slot entries idx.toNat).dib < incoming.dib
        · have below := UInt32.lt_iff_toNat_lt.mp nearer
          rw [if_pos nearer, if_pos (dib_lt_iff.mpr nearer), ← next_plain,
            ← farther_plain (by omega), ← plain_set]
          exact ih (room_succ (by omega))
        · rw [if_neg nearer, if_neg (mt dib_lt_iff.mp nearer), ← next_plain,
            ← farther_plain (by omega)]
          exact ih (room_succ (by omega))

theorem setLoop_plain (room : incoming.dib.toNat + fuel ≤ 2 ^ 32) :
    RobinHoodMap.setLoop mask.toNat h fuel idx.toNat incoming.plain (plainEntries entries) =
      (setLoop mask h fuel idx incoming entries).map fun r => (plainEntries r.1, r.2) := by
  induction fuel generalizing idx incoming entries with
  | zero => rfl
  | succ fuel ih =>
    unfold RobinHoodMap.setLoop setLoop
    dsimp only
    rw [slot_plain]
    by_cases free : (slot entries idx.toNat).empty = true
    · rw [if_pos free, if_pos (by exact free), Option.map_some, plain_set]
    · rw [if_neg free, if_neg (by exact free)]
      by_cases hit : (slot entries idx.toNat).hash = h ∧ (slot entries idx.toNat).key = incoming.key
      · rw [if_pos hit, if_pos (by exact hit), Option.map_some, plain_set]
        rfl
      · rw [if_neg hit, if_neg (by exact hit)]
        cases fuel with
        | zero => split <;> split <;> rfl
        | succ fuel =>
          by_cases nearer : (slot entries idx.toNat).dib < incoming.dib
          · have below := UInt32.lt_iff_toNat_lt.mp nearer
            rw [if_pos nearer, if_pos (dib_lt_iff.mpr nearer), ← next_plain,
              ← farther_plain (by omega), ← plain_set]
            exact ih (room_succ (by omega))
          · rw [if_neg nearer, if_neg (mt dib_lt_iff.mp nearer), ← next_plain,
              ← farther_plain (by omega)]
            exact ih (room_succ (by omega))

theorem findLoop_plain (room : dib.toNat + fuel ≤ 2 ^ 32) :
    RobinHoodMap.findLoop mask.toNat h key (plainEntries entries) fuel idx.toNat dib.toNat =
      (findLoop mask h key entries fuel idx dib).map fun found => found.map UInt32.toNat := by
  induction fuel generalizing idx dib with
  | zero => rfl
  | succ fuel ih =>
    unfold RobinHoodMap.findLoop findLoop
    dsimp only
    rw [slot_plain]
    by_cases free : (slot entries idx.toNat).empty = true
    · rw [if_pos free, if_pos (by exact free)]
      rfl
    · rw [if_neg free, if_neg (by exact free)]
      have order : (slot entries idx.toNat).plain.dib < dib.toNat ↔
          (slot entries idx.toNat).dib < dib := UInt32.lt_iff_toNat_lt.symm
      by_cases nearer : (slot entries idx.toNat).dib < dib
      · rw [if_pos nearer, if_pos (order.mpr nearer)]
        rfl
      · rw [if_neg nearer, if_neg (mt order.mp nearer)]
        by_cases hit : (slot entries idx.toNat).hash = h ∧ (slot entries idx.toNat).key = key
        · rw [if_pos hit, if_pos (by exact hit)]
          rfl
        · rw [if_neg hit, if_neg (by exact hit)]
          cases fuel with
          | zero => rfl
          | succ fuel =>
            rw [← next_plain, ← dib_succ (by omega)]
            exact ih (room_succ room)

theorem eraseAt_plain (mask : UInt32) (fuel : Nat) (idx : UInt32) (entries : Array Entry32) :
    RobinHoodMap.eraseAt mask.toNat fuel idx.toNat (plainEntries entries) =
      (eraseAt mask fuel idx entries).map plainEntries := by
  induction fuel generalizing idx entries with
  | zero => rfl
  | succ fuel ih =>
    unfold RobinHoodMap.eraseAt eraseAt
    dsimp only
    rw [← next_plain, slot_plain]
    generalize slot entries ((idx + 1) &&& mask).toNat = nx
    have home : nx.plain.dib = 0 ↔ nx.dib = 0 := by
      rw [← UInt32.toNat_inj]
      rfl
    by_cases stop : nx.empty = true ∨ nx.dib = 0
    · rw [if_pos stop, if_pos (stop.imp (by exact id) home.mpr), Option.map_some, plain_set]
      rfl
    · rw [if_neg stop, if_neg (mt (Or.imp (by exact id) home.mp) stop), ← ih, plain_set,
        nearer_plain fun zero => stop (Or.inr zero)]

/-! ### More turns -/

theorem growInsert_mono {fuel' : Nat} {grown : Array Entry32} (more : fuel ≤ fuel')
    (done : growInsert mask fuel idx incoming entries = some grown) :
    growInsert mask fuel' idx incoming entries = some grown := by
  induction fuel generalizing fuel' idx incoming entries with
  | zero => cases done
  | succ fuel ih =>
    obtain ⟨fuel', rfl⟩ := Nat.exists_eq_add_of_le' (Nat.le_of_add_left_le more)
    rw [growInsert] at done ⊢
    split at done
    · rename_i free
      rw [if_pos free]
      exact done
    · rename_i taken
      rw [if_neg taken]
      split at done
      · rename_i nearer
        rw [if_pos nearer]
        exact ih (by omega) done
      · rename_i farther
        rw [if_neg farther]
        exact ih (by omega) done

theorem setLoop_mono {fuel' : Nat} {r : Array Entry32 × Bool} (more : fuel ≤ fuel')
    (done : setLoop mask h fuel idx incoming entries = some r) :
    setLoop mask h fuel' idx incoming entries = some r := by
  induction fuel generalizing fuel' idx incoming entries with
  | zero => cases done
  | succ fuel ih =>
    obtain ⟨fuel', rfl⟩ := Nat.exists_eq_add_of_le' (Nat.le_of_add_left_le more)
    rw [setLoop] at done ⊢
    split at done
    · rename_i free
      rw [if_pos free]
      exact done
    · rename_i taken
      rw [if_neg taken]
      split at done
      · rename_i hit
        rw [if_pos hit]
        exact done
      · rename_i other
        rw [if_neg other]
        split at done
        · rename_i nearer
          rw [if_pos nearer]
          exact ih (by omega) done
        · rename_i farther
          rw [if_neg farther]
          exact ih (by omega) done

theorem findLoop_mono {fuel' : Nat} {found : Option UInt32} (more : fuel ≤ fuel')
    (done : findLoop mask h key entries fuel idx dib = some found) :
    findLoop mask h key entries fuel' idx dib = some found := by
  induction fuel generalizing fuel' idx dib with
  | zero => cases done
  | succ fuel ih =>
    obtain ⟨fuel', rfl⟩ := Nat.exists_eq_add_of_le' (Nat.le_of_add_left_le more)
    rw [findLoop] at done ⊢
    split at done
    · rename_i free
      rw [if_pos free]
      exact done
    · rename_i taken
      rw [if_neg taken]
      split at done
      · rename_i nearer
        rw [if_pos nearer]
        exact done
      · rename_i farther
        rw [if_neg farther]
        split at done
        · rename_i hit
          rw [if_pos hit]
          exact done
        · rename_i other
          rw [if_neg other]
          exact ih (by omega) done

theorem eraseAt_mono {fuel' : Nat} {shifted : Array Entry32} (more : fuel ≤ fuel')
    (done : eraseAt mask fuel idx entries = some shifted) :
    eraseAt mask fuel' idx entries = some shifted := by
  induction fuel generalizing fuel' idx entries with
  | zero => cases done
  | succ fuel ih =>
    obtain ⟨fuel', rfl⟩ := Nat.exists_eq_add_of_le' (Nat.le_of_add_left_le more)
    rw [eraseAt] at done ⊢
    split at done
    · rename_i stop
      rw [if_pos stop]
      exact done
    · rename_i away
      rw [if_neg away]
      exact ih (by omega) done

theorem growStep_mono {fuel' : Nat} {m' : RobinHoodMap32} {old : Entry32} (more : fuel ≤ fuel')
    (done : growStep fuel m old = some m') : growStep fuel' m old = some m' := by
  unfold growStep at done ⊢
  split at done
  · rename_i free
    rw [if_pos free]
    exact done
  · rename_i taken
    rw [if_neg taken]
    obtain ⟨entries, moved, same⟩ := Option.bind_eq_some_iff.mp done
    exact Option.bind_eq_some_iff.mpr ⟨entries, growInsert_mono more moved, same⟩

theorem growLoop_mono {fuel' : Nat} {m' : RobinHoodMap32} {olds : List Entry32}
    (more : fuel ≤ fuel') (done : olds.foldlM (growStep fuel) m = some m') :
    olds.foldlM (growStep fuel') m = some m' := by
  induction olds generalizing m with
  | nil => exact done
  | cons old olds ih =>
    rw [List.foldlM_cons] at done ⊢
    obtain ⟨m₁, step, rest⟩ := Option.bind_eq_some_iff.mp done
    exact Option.bind_eq_some_iff.mpr ⟨m₁, growStep_mono more step, ih rest⟩

theorem set_mono {fuel' : Nat} {val : Bytes} {r : RobinHoodMap32 × Bool} (more : fuel ≤ fuel')
    (done : m.set fuel key val = some r) : m.set fuel' key val = some r := by
  unfold set at done ⊢
  obtain ⟨m₁, roomy, rest⟩ := Option.bind_eq_some_iff.mp done
  obtain ⟨put, placed, same⟩ := Option.bind_eq_some_iff.mp rest
  have roomy' : (if m.overloaded then m.grow fuel' else some m) = some m₁ := by
    split at roomy
    · rename_i heavy
      rw [if_pos heavy]
      exact growLoop_mono more roomy
    · rename_i light
      rw [if_neg light]
      exact roomy
  exact Option.bind_eq_some_iff.mpr ⟨m₁, roomy',
    Option.bind_eq_some_iff.mpr ⟨put, setLoop_mono more placed, same⟩⟩

theorem get_mono {fuel' : Nat} {r : Option Bytes} (more : fuel ≤ fuel')
    (done : m.get fuel key = some r) : m.get fuel' key = some r := by
  unfold get at done ⊢
  obtain ⟨found, searched, same⟩ := Option.bind_eq_some_iff.mp done
  exact Option.bind_eq_some_iff.mpr ⟨found, findLoop_mono more searched, same⟩

theorem del_mono {fuel' : Nat} {r : RobinHoodMap32 × Bool} (more : fuel ≤ fuel')
    (done : m.del fuel key = some r) : m.del fuel' key = some r := by
  unfold del at done ⊢
  obtain ⟨found, searched, rest⟩ := Option.bind_eq_some_iff.mp done
  refine Option.bind_eq_some_iff.mpr ⟨found, findLoop_mono more searched, ?_⟩
  cases found with
  | none => exact rest
  | some idx =>
    obtain ⟨entries, shifted, same⟩ := Option.bind_eq_some_iff.mp rest
    exact Option.bind_eq_some_iff.mpr ⟨entries, eraseAt_mono more shifted, same⟩

/-! ### Calls -/

/-- The home slot of a hash. -/
theorem home_plain (x : UInt32) (m : RobinHoodMap32) :
    x.toNat &&& m.plain.mask = (x &&& m.mask).toNat := (UInt32.toNat_and _ _).symm

/-- From home, one turn of the ring takes no distance out of the words. -/
theorem room_of_turn (small : m.capacity ≤ 2 ^ 32) :
    (0 : UInt32).toNat + m.capacity ≤ 2 ^ 32 := by
  rw [UInt32.toNat_zero, Nat.zero_add]
  exact small

theorem plain_clearAll (n : Nat) : plainEntries (clearAll n) = RobinHoodMap.clearAll n := by
  unfold plainEntries clearAll RobinHoodMap.clearAll
  rw [Array.map_replicate]
  rfl

theorem growStep_capacity {m' : RobinHoodMap32} {old : Entry32}
    (ran : growStep fuel m old = some m') : m'.capacity = m.capacity := by
  unfold growStep at ran
  split at ran
  · cases ran
    rfl
  · obtain ⟨entries, -, ran⟩ := Option.bind_eq_some_iff.mp ran
    cases ran
    rfl

theorem growStep_plain (small : m.capacity ≤ 2 ^ 32) (old : Entry32) :
    RobinHoodMap.growStep m.plain old.plain = (growStep m.capacity m old).map plain := by
  unfold RobinHoodMap.growStep growStep
  by_cases free : old.empty = true
  · rw [if_pos free, if_pos (by exact free)]
    rfl
  · rw [if_neg free, if_neg (by exact free)]
    have moved : RobinHoodMap.growInsert m.plain.mask m.plain.capacity
        (old.plain.hash.toNat &&& m.plain.mask) { old.plain with dib := 0 } m.plain.entries =
        (growInsert m.mask m.capacity (old.hash &&& m.mask) { old with dib := 0 } m.entries).map
          plainEntries := by
      rw [home_plain]
      have start : ({ old with dib := 0 } : Entry32).dib.toNat + m.capacity ≤ 2 ^ 32 :=
        room_of_turn small
      exact growInsert_plain start
    rw [moved]
    cases growInsert m.mask m.capacity (old.hash &&& m.mask) { old with dib := 0 } m.entries <;> rfl

theorem growLoop_plain (olds : List Entry32) (small : m.capacity ≤ 2 ^ 32)
    (turn : fuel = m.capacity) :
    (olds.map Entry32.plain).foldlM RobinHoodMap.growStep m.plain =
      (olds.foldlM (growStep fuel) m).map plain := by
  induction olds generalizing m with
  | nil => rfl
  | cons old olds ih =>
    rw [List.map_cons, List.foldlM_cons, List.foldlM_cons, growStep_plain small, ← turn]
    cases step : growStep fuel m old with
    | none => rfl
    | some m' =>
      have same := growStep_capacity step
      exact ih (by omega) (by omega)

/-- `grow` to at most `2 ^ 32` slots. -/
theorem grow_plain (some_slot : 0 < m.capacity) (small : m.capacity * 2 ≤ 2 ^ 32) :
    m.plain.grow = (m.grow (m.capacity * 2)).map plain := by
  have mask : (UInt32.ofNat (m.capacity * 2 - 1)).toNat = m.capacity * 2 - 1 := by
    rw [UInt32.toNat_ofNat']
    exact Nat.mod_eq_of_lt (by omega)
  unfold RobinHoodMap.grow grow
  rw [← growLoop_plain (m := ⟨clearAll (m.capacity * 2), 0, m.capacity * 2,
    UInt32.ofNat (m.capacity * 2 - 1)⟩) m.entries.toList small rfl]
  unfold plain
  dsimp only
  rw [plain_clearAll, mask]
  unfold plainEntries
  rw [Array.toList_map]

/-- The search for a key. -/
theorem find_plain (small : m.capacity ≤ 2 ^ 32) (key : Bytes) :
    RobinHoodMap.findLoop m.plain.mask (RobinHoodMap.hash key) key m.plain.entries
        m.plain.capacity ((RobinHoodMap.hash key).toNat &&& m.plain.mask) 0 =
      (findLoop m.mask (RobinHoodMap.hash key) key m.entries m.capacity
        (RobinHoodMap.hash key &&& m.mask) 0).map fun found => found.map UInt32.toNat := by
  rw [home_plain]
  exact findLoop_plain (room_of_turn small)

theorem get_plain (small : m.capacity ≤ 2 ^ 32) (key : Bytes) :
    m.plain.get key = m.get m.capacity key := by
  unfold RobinHoodMap.get get
  dsimp only
  rw [find_plain small]
  cases findLoop m.mask (RobinHoodMap.hash key) key m.entries m.capacity
      (RobinHoodMap.hash key &&& m.mask) 0 with
  | none => rfl
  | some found =>
    cases found with
    | none => rfl
    | some idx =>
      have value := congrArg Entry.val (slot_plain m.entries idx.toNat)
      exact congrArg (some ∘ some) value

theorem del_plain (small : m.capacity ≤ 2 ^ 32) (key : Bytes) :
    m.plain.del key = (m.del m.capacity key).map fun r => (r.1.plain, r.2) := by
  unfold RobinHoodMap.del del
  dsimp only
  rw [find_plain small]
  cases findLoop m.mask (RobinHoodMap.hash key) key m.entries m.capacity
      (RobinHoodMap.hash key &&& m.mask) 0 with
  | none => rfl
  | some found =>
    cases found with
    | none => rfl
    | some idx =>
      have erased := eraseAt_plain m.mask m.capacity idx m.entries
      simp only [Option.map_some, Option.bind_eq_bind, Option.bind_some]
      rw [show RobinHoodMap.eraseAt m.plain.mask m.plain.capacity idx.toNat m.plain.entries = _
        from erased]
      cases eraseAt m.mask m.capacity idx m.entries <;> rfl

/-- The probe loop of `set`. -/
theorem put_plain (small : m.capacity ≤ 2 ^ 32) (key val : Bytes) :
    RobinHoodMap.setLoop m.plain.mask (RobinHoodMap.hash key) m.plain.capacity
        ((RobinHoodMap.hash key).toNat &&& m.plain.mask) ⟨RobinHoodMap.hash key, 0, key, val⟩
        m.plain.entries =
      (setLoop m.mask (RobinHoodMap.hash key) m.capacity (RobinHoodMap.hash key &&& m.mask)
        ⟨RobinHoodMap.hash key, 0, key, val⟩ m.entries).map fun r => (plainEntries r.1, r.2) := by
  rw [home_plain]
  have start : (⟨RobinHoodMap.hash key, 0, key, val⟩ : Entry32).dib.toNat + m.capacity ≤ 2 ^ 32 :=
    room_of_turn small
  exact setLoop_plain start

end

end RobinHoodMap32

end FastGraph
