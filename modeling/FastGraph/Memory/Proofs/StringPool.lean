import FastGraph.Memory.StringPool

/-!
# Interned strings stay where they are

Every string of the table is in the memory its pointer points at, and stays there whatever
is interned later. The arena is full to the sum of what the strings take, each rounded up,
so that strings which one pool has held fit into another in any order.
-/

namespace FastGraph

namespace Arena

theorem dvd_alignUp (used align : Nat) : align ∣ alignUp used align := Dvd.intro_left _ rfl

theorem le_alignUp {used align : Nat} (pos : 0 < align) : used ≤ alignUp used align := by
  have whole := Nat.div_add_mod (used + align - 1) align
  have small := Nat.mod_lt (used + align - 1) pos
  unfold alignUp
  rw [Nat.mul_comm]
  omega

/-- Rounding up past a multiple of the alignment. -/
theorem alignUp_add {offset size align : Nat} (pos : 0 < align) (aligned : align ∣ offset) :
    alignUp (offset + size) align = offset + alignUp size align := by
  obtain ⟨k, rfl⟩ := aligned
  unfold alignUp
  rw [show align * k + size + align - 1 = size + align - 1 + align * k by omega,
    Nat.add_mul_div_left _ _ pos, Nat.add_mul, Nat.add_comm, Nat.mul_comm k]

/-- What does not exceed a multiple of the alignment does not exceed it rounded up. -/
theorem alignUp_le {used align bound : Nat} (pos : 0 < align) (aligned : align ∣ bound)
    (le : used ≤ bound) : alignUp used align ≤ bound := by
  obtain ⟨k, rfl⟩ := aligned
  unfold alignUp
  rw [Nat.mul_comm align k]
  apply Nat.mul_le_mul_right
  apply Nat.le_of_lt_succ
  apply Nat.div_lt_of_lt_mul
  rw [Nat.mul_succ]
  omega

end Arena

namespace StringPool
open Arena

/-- What an interned string takes of the arena. -/
def cost (s : Bytes) : Nat := alignUp (s.length + 1) maxAlign

/-- The strings of the table. -/
def strings (p : StringPool) : Finset Bytes := (AList.keys p.table).toFinset

/-- The invariant of a pool. -/
structure Valid (p : StringPool) : Prop where
  cap : p.arena.cap = 4 * 1024 * 1024
  held : ∀ s ptr, p.table.find s = some ptr →
    p.memory.find ptr = some (s ++ [0]) ∧ ptr < p.arena.used
  full : alignUp p.arena.used maxAlign = ∑ s ∈ p.strings, cost s
  bound : p.arena.used ≤ p.arena.cap

section
variable {p : StringPool} {s t : Bytes} {ptr : Nat}

theorem mem_strings : s ∈ p.strings ↔ (p.table.find s).isSome := by
  unfold strings
  rw [List.mem_toFinset]
  cases found : p.table.find s with
  | none => simpa using (UnorderedMap.find_eq_none_iff p.table s).mp found
  | some ptr =>
    simp only [Option.isSome_some, iff_true]
    by_contra missing
    rw [(UnorderedMap.find_eq_none_iff p.table s).mpr missing] at found
    cases found

theorem valid_empty : Valid empty where
  cap := rfl
  held _ _ found := by cases found
  full := rfl
  bound := Nat.zero_le _

/-- The strings of a pool fit into its arena, each rounded up. -/
theorem Valid.fits (valid : Valid p) : ∑ s ∈ p.strings, cost s ≤ 4 * 1024 * 1024 := by
  rw [← valid.full, ← valid.cap]
  apply alignUp_le (by decide)
  · rw [valid.cap]
    decide
  · exact valid.bound

/-- An interned string is shorter than the arena. -/
theorem Valid.length_lt (valid : Valid p) (mem : s ∈ p.strings) : s.length < 4 * 1024 * 1024 := by
  have rounded : s.length + 1 ≤ cost s := le_alignUp (by decide)
  have part : cost s ≤ ∑ t ∈ p.strings, cost t :=
    Finset.single_le_sum (fun _ _ => Nat.zero_le _) mem
  have whole := valid.fits
  omega

/-- What is read at the pointer of an interned string: the bytes before the first NUL. -/
theorem Valid.cString_eq (valid : Valid p) (found : p.table.find s = some ptr) :
    p.cString ptr = s.takeWhile (· ≠ 0) := by
  have terminated (t : Bytes) : (t ++ [0]).takeWhile (· ≠ 0) = t.takeWhile (· ≠ 0) := by
    induction t with
    | nil => simp
    | cons b t ih =>
      by_cases nul : b = 0
      · simp [nul]
      · rw [List.cons_append, List.takeWhile_cons_of_pos (by simpa using nul),
          List.takeWhile_cons_of_pos (by simpa using nul), ih]
  unfold StringPool.cString
  rw [(valid.held s ptr found).1, Option.getD_some, terminated]

/-- An interned string is read back exactly if it has no NUL. -/
theorem Valid.cString_iff (valid : Valid p) (found : p.table.find s = some ptr) :
    p.cString ptr = s ↔ 0 ∉ s := by
  rw [valid.cString_eq found, List.takeWhile_eq_self_iff]
  constructor
  · intro clean nul
    exact absurd (clean 0 nul) (by decide)
  · intro clean b mem
    simp only [decide_eq_true_eq]
    rintro rfl
    exact clean mem

theorem Valid.cString (valid : Valid p) (found : p.table.find s = some ptr) (clean : 0 ∉ s) :
    p.cString ptr = s := (valid.cString_iff found).mpr clean

/-- What `intern` does: the table keeps its strings, gains at most the one asked for, and the
result points at it. -/
structure Interned (p p' : StringPool) (s : Bytes) (ptr : CharPtr) : Prop where
  valid : Valid p'
  kept : ∀ t q, p.table.find t = some q → p'.table.find t = some q
  found : ∀ q, ptr = some q → p'.table.find s = some q
  strings : p'.strings ⊆ insert s p.strings

/-- A string that is not in the table gets the next place of the arena. -/
theorem Valid.intern_new (valid : Valid p) (missing : p.table.find s = none)
    (room : alignUp p.arena.used maxAlign + (s.length + 1) ≤ p.arena.cap) :
    ∃ ptr, (p.intern s).2 = some ptr ∧ Interned p (p.intern s).1 s (some ptr) := by
  have alloc : p.arena.alloc (s.length + 1) maxAlign =
      ({ p.arena with used := alignUp p.arena.used maxAlign + (s.length + 1) },
        some (alignUp p.arena.used maxAlign)) := by
    unfold Arena.alloc
    exact if_neg (Nat.not_lt.mpr room)
  have below : p.arena.used ≤ alignUp p.arena.used maxAlign := le_alignUp (by decide)
  have grown : ∀ t, t ∈ (p.intern s).1.strings ↔ t = s ∨ t ∈ p.strings := by
    intro t
    simp only [mem_strings, intern, missing, alloc, UnorderedMap.find_set]
    by_cases same : t = s <;> simp [same]
  have strings : (p.intern s).1.strings = insert s p.strings := by
    ext t
    rw [grown, Finset.mem_insert]
  refine ⟨alignUp p.arena.used maxAlign, by simp [intern, missing, alloc], ⟨?_, ?_, ?_, ?_⟩, ?_, ?_, ?_⟩
  · simpa [intern, missing, alloc] using valid.cap
  · intro t q found
    simp only [intern, missing, alloc, UnorderedMap.find_set] at found ⊢
    by_cases same : t = s
    · rw [if_pos same] at found
      cases found
      simp [same]
    · rw [if_neg same] at found
      obtain ⟨stored, lower⟩ := valid.held t q found
      have other : q ≠ alignUp p.arena.used maxAlign := by omega
      exact ⟨by rw [if_neg other, stored], by omega⟩
  · rw [strings, Finset.sum_insert (by simp [mem_strings, missing]), ← valid.full]
    simp only [intern, missing, alloc]
    rw [alignUp_add (by decide) (dvd_alignUp _ _), Nat.add_comm, cost]
  · simpa [intern, missing, alloc] using room
  · intro t q found
    have other : t ≠ s := by
      rintro rfl
      rw [missing] at found
      cases found
    simp [intern, missing, alloc, UnorderedMap.find_set, other, found]
  · intro q same
    cases same
    simp [intern, missing, alloc]
  · rw [strings]

/-- A string of the table is not interned again. -/
theorem intern_of_found (found : p.table.find s = some ptr) : p.intern s = (p, some ptr) := by
  simp [intern, found]

/-- Interning the string changes the pool no more. -/
def Settled (p : StringPool) (s : Bytes) (ptr : CharPtr) : Prop := p.intern s = (p, ptr)

/-- The ways in which `intern` ends. -/
theorem intern_cases (p : StringPool) (s : Bytes) :
    Settled p s (p.intern s).2 ∨
      p.table.find s = none ∧ alignUp p.arena.used maxAlign + (s.length + 1) ≤ p.arena.cap ∧
        p.intern s = ({ arena := { p.arena with used := alignUp p.arena.used maxAlign + (s.length + 1) }
                        table := p.table.set s (alignUp p.arena.used maxAlign)
                        memory := p.memory.set (alignUp p.arena.used maxAlign) (s ++ [0]) },
          some (alignUp p.arena.used maxAlign)) := by
  unfold Settled
  cases found : p.table.find s with
  | some ptr => exact Or.inl (by rw [intern_of_found found])
  | none =>
    by_cases room : alignUp p.arena.used maxAlign + (s.length + 1) ≤ p.arena.cap
    · exact Or.inr ⟨rfl, room, by simp [intern, found, Arena.alloc, Nat.not_lt.mpr room]⟩
    · exact Or.inl (by simp [intern, found, Arena.alloc, Nat.lt_of_not_le room])

/-- A string is settled if it is in the table, or if there is no room for it. -/
theorem settled_iff {ptr : CharPtr} : Settled p s ptr ↔ p.table.find s = ptr ∧
    (ptr = none → p.arena.cap < alignUp p.arena.used maxAlign + (s.length + 1)) := by
  unfold Settled
  cases found : p.table.find s with
  | some q =>
    rw [intern_of_found found]
    constructor
    · intro same
      cases same
      exact ⟨rfl, nofun⟩
    · rintro ⟨rfl, -⟩
      rfl
  | none =>
    by_cases room : alignUp p.arena.used maxAlign + (s.length + 1) ≤ p.arena.cap
    · have stored : p.intern s ≠ (p, ptr) := by
        intro same
        have table := congrArg (fun r => r.1.table.find s) same
        simp [intern, found, Arena.alloc, Nat.not_lt.mpr room] at table
      refine iff_of_false stored ?_
      rintro ⟨rfl, full⟩
      exact absurd room (Nat.not_le.mpr (full rfl))
    · simp [intern, found, Arena.alloc, Nat.lt_of_not_le room, eq_comm]

/-- A string that has been interned is settled. -/
theorem settled_intern (p : StringPool) (s : Bytes) : Settled (p.intern s).1 s (p.intern s).2 := by
  rcases intern_cases p s with settled | ⟨missing, room, stored⟩
  · have same : (p.intern s).1 = p := congrArg Prod.fst settled
    rw [same]
    exact settled
  · rw [stored]
    exact intern_of_found (UnorderedMap.find_set_self _ _ _)

/-- It stays settled whatever else is interned. -/
theorem Settled.intern {ptr : CharPtr} (settled : Settled p s ptr) (t : Bytes) :
    Settled (p.intern t).1 s ptr := by
  rcases intern_cases p t with same | ⟨missing, room, stored⟩
  · have same' : (p.intern t).1 = p := congrArg Prod.fst same
    rw [same']
    exact settled
  · obtain ⟨found, full⟩ := settled_iff.mp settled
    have other : s ≠ t := by
      rintro rfl
      rw [missing] at found
      have := full found.symm
      omega
    rw [stored, settled_iff]
    refine ⟨by simp [UnorderedMap.find_set, other, found], ?_⟩
    intro none
    have less := full none
    have grown : alignUp p.arena.used maxAlign + (t.length + 1) ≤
        alignUp (alignUp p.arena.used maxAlign + (t.length + 1)) maxAlign := le_alignUp (by decide)
    dsimp only
    omega

/-- The string is not in the table, and the rest of the arena is too short for it. -/
def NoRoom (p : StringPool) (s : Bytes) : Prop :=
  p.table.find s = none ∧ p.arena.cap < alignUp p.arena.used maxAlign + (s.length + 1)

/-- `intern` returns `nullptr` where there is no room, and only there. -/
theorem intern_eq_none_iff : (p.intern s).2 = none ↔ NoRoom p s := by
  rcases intern_cases p s with settled | ⟨missing, room, stored⟩
  · obtain ⟨found, full⟩ := settled_iff.mp settled
    constructor
    · intro null
      exact ⟨found.trans null, full null⟩
    · intro noRoom
      exact found.symm.trans noRoom.1
  · rw [stored]
    exact iff_of_false (by simp) fun noRoom => absurd room (Nat.not_le.mpr noRoom.2)

/-- There is never room for a string that is as long as the arena. -/
theorem Valid.noRoom_of_long (valid : Valid p) (long : 4 * 1024 * 1024 ≤ s.length) :
    NoRoom p s := by
  constructor
  · rw [Option.eq_none_iff_forall_ne_some]
    intro ptr found
    have short := valid.length_lt (mem_strings.mpr (by rw [found]; rfl))
    omega
  · rw [valid.cap]
    omega

/-- Different settled strings have different pointers, if these are not null. -/
theorem Settled.inj (valid : Valid p) (settled : Settled p s (some ptr))
    (settled' : Settled p t (some ptr)) : s = t := by
  have stored := (valid.held s ptr (settled_iff.mp settled).1).1
  have stored' := (valid.held t ptr (settled_iff.mp settled').1).1
  rw [stored, Option.some.injEq] at stored'
  exact List.append_cancel_right stored'

/-- `intern` keeps a pool valid, whether or not there is room. -/
theorem Valid.intern (valid : Valid p) (s : Bytes) :
    Interned p (p.intern s).1 s (p.intern s).2 := by
  cases found : p.table.find s with
  | some ptr =>
    rw [intern_of_found found]
    refine ⟨valid, fun _ _ h => h, ?_, Finset.subset_insert _ _⟩
    intro q same
    exact found.trans same
  | none =>
    by_cases room : alignUp p.arena.used maxAlign + (s.length + 1) ≤ p.arena.cap
    · obtain ⟨ptr, result, interned⟩ := valid.intern_new found room
      rw [result]
      exact interned
    · have alloc : p.arena.alloc (s.length + 1) maxAlign = (p.arena, none) := by
        unfold Arena.alloc
        exact if_pos (Nat.lt_of_not_le room)
      have same : p.intern s = (p, none) := by simp [StringPool.intern, found, alloc]
      rw [same]
      exact ⟨valid, fun _ _ h => h, by simp, Finset.subset_insert _ _⟩

/-- Strings that fit the arena together can be interned in any order. -/
theorem Valid.intern_fits (valid : Valid p) {T : Finset Bytes} (among : p.strings ⊆ T)
    (mem : s ∈ T) (fits : ∑ t ∈ T, cost t ≤ 4 * 1024 * 1024) :
    ∃ ptr, (p.intern s).2 = some ptr ∧ (p.intern s).1.strings ⊆ T := by
  have within : insert s p.strings ⊆ T := Finset.insert_subset mem among
  cases found : p.table.find s with
  | some ptr =>
    rw [intern_of_found found]
    exact ⟨ptr, rfl, among⟩
  | none =>
    have sum : ∑ t ∈ insert s p.strings, cost t ≤ ∑ t ∈ T, cost t :=
      Finset.sum_le_sum_of_subset within
    rw [Finset.sum_insert (by simp [mem_strings, found]), ← valid.full] at sum
    have rounded : s.length + 1 ≤ cost s := le_alignUp (by decide)
    have room : alignUp p.arena.used maxAlign + (s.length + 1) ≤ p.arena.cap := by
      rw [valid.cap]
      omega
    obtain ⟨ptr, result, interned⟩ := valid.intern_new found room
    exact ⟨ptr, result, interned.strings.trans within⟩

end

end StringPool

end FastGraph
