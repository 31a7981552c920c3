import FastGraph.Memory.Arena
import FastGraph.Memory.Proofs.StringPool

/-!
# Blocks of an arena

As long as the exact end of a block stays below `2^64` the words compute it, and blocks are
aligned, lie within the capacity and are apart, each starting where all earlier ones have ended.
A request whose exact end is `2^64` or more passes the test when the end that is left of it
does; it then sets `used_` back below blocks that are in use.
-/

namespace FastGraph.Arena64
open Arena

namespace Alignment

theorem pos (align : Alignment) : 0 < align.val.toNat :=
  Nat.pos_of_isPowerOfTwo align.power

/-- An alignment divides the number of `size_t` values. -/
theorem dvd_words (align : Alignment) : align.val.toNat ∣ 2 ^ 64 := by
  obtain ⟨k, power⟩ := align.power
  have small : align.val.toNat < 2 ^ 64 := align.val.toNat_lt
  rw [power] at small ⊢
  exact Nat.pow_dvd_pow 2 ((Nat.pow_lt_pow_iff_right (by decide)).mp small).le

end Alignment

/-! ### Rounding up -/

/-- `x & ~( align - 1 )` is `x` rounded down. -/
theorem and_not_mask (x : UInt64) (align : Alignment) :
    (x &&& ~~~(align.val - 1)).toNat = x.toNat / align.val.toNat * align.val.toNat := by
  have mask : (align.val - 1).toNat = align.val.toNat - 1 :=
    UInt64.toNat_sub_of_le _ _ (UInt64.le_iff_toNat_le.mpr align.pos)
  obtain ⟨k, power⟩ := align.power
  have small : 2 ^ k - 1 < 2 ^ 64 := by rw [← power, ← mask]; exact (align.val - 1).toNat_lt
  have complement : (~~~(align.val - 1)).toNat = 2 ^ 64 - (2 ^ k - 1 + 1) := by
    rw [← power, ← mask, UInt64.toNat_not]
    change 2 ^ 64 - 1 - _ = _
    omega
  rw [UInt64.toNat_and, complement, power, ← Nat.shiftRight_eq_div_pow, ← Nat.shiftLeft_eq]
  apply Nat.eq_of_testBit_eq
  intro i
  rw [Nat.testBit_and, Nat.testBit_two_pow_sub_succ small, Nat.testBit_two_pow_sub_one,
    Nat.testBit_shiftLeft, Nat.testBit_shiftRight]
  by_cases low : i < k
  · simp [low]
  · by_cases inside : i < 64
    · simp [low, inside, Nat.add_sub_cancel' (Nat.le_of_not_lt low), Nat.le_of_not_lt low]
    · have clear : x.toNat.testBit i = false :=
        Nat.testBit_lt_two_pow (x.toNat_lt.trans_le (Nat.pow_le_pow_right (by decide) (by omega)))
      simp [clear, Nat.add_sub_cancel' (Nat.le_of_not_lt low)]

/-- Rounding down a remainder is the remainder of rounding down. -/
theorem mod_div_mul {x w d : Nat} (dvd : d ∣ w) : x % w / d * d = x / d * d % w := by
  obtain ⟨c, rfl⟩ := dvd
  rw [Nat.mod_mul_right_div_self, Nat.mul_comm (x / d), Nat.mul_mod_mul_left, Nat.mul_comm]

/-- What `alloc` rounds `used_` up to. -/
theorem offset_eq (used : UInt64) (align : Alignment) :
    ((used + align.val - 1) &&& ~~~(align.val - 1)).toNat =
      alignUp used.toNat align.val.toNat % 2 ^ 64 := by
  have sum : (used + align.val - 1).toNat = (used.toNat + align.val.toNat - 1) % 2 ^ 64 := by
    have pos := align.pos
    rw [UInt64.toNat_sub, UInt64.toNat_add, UInt64.toNat_one]
    omega
  rw [and_not_mask, sum, mod_div_mul align.dvd_words, alignUp]

/-! ### One call -/

/-- The exact end of the block of a request. -/
def Request.stop (r : Request) (used : Nat) : Nat :=
  alignUp used r.align.val.toNat + r.size.toNat

/-- The arena in plain numbers. -/
def exact (a : Arena64) : Arena := ⟨a.cap.toNat, a.used.toNat⟩

section
variable {a : Arena64} {r : Request} {rs : List Request} {old : List Block} {cap used : Nat}

theorem serve_eq (a : Arena64) (r : Request) : a.serve r = a.alloc r.size r.align.val := by
  cases r <;> rfl

/-- What a call does: the test sees the exact end modulo `2^64`. -/
theorem serve_cases (a : Arena64) (r : Request) :
    (a.cap.toNat < r.stop a.used.toNat % 2 ^ 64 ∧ a.serve r = (a, none)) ∨
      (r.stop a.used.toNat % 2 ^ 64 ≤ a.cap.toNat ∧ ∃ used offset : UInt64,
        a.serve r = ({ a with used := used }, some offset) ∧
        used.toNat = r.stop a.used.toNat % 2 ^ 64 ∧
        offset.toNat = alignUp a.used.toNat r.align.val.toNat % 2 ^ 64) := by
  have offset := offset_eq a.used r.align
  have stop : (((a.used + r.align.val - 1) &&& ~~~(r.align.val - 1)) + r.size).toNat =
      r.stop a.used.toNat % 2 ^ 64 := by
    rw [UInt64.toNat_add, offset, Nat.mod_add_mod, Request.stop]
  rw [serve_eq]
  unfold alloc
  dsimp only
  by_cases full : a.cap.toNat < r.stop a.used.toNat % 2 ^ 64
  · left
    refine ⟨full, if_pos ?_⟩
    rw [UInt64.lt_iff_toNat_lt, stop]
    exact full
  · right
    refine ⟨Nat.le_of_not_lt full, _, _, if_neg ?_, stop, offset⟩
    rw [UInt64.lt_iff_toNat_lt, stop]
    exact full

/-- A request whose exact end is below `2^64` is served as by the arena in plain numbers. -/
theorem serve_exact (small : r.stop a.used.toNat < 2 ^ 64) :
    ((a.serve r).1.exact, (a.serve r).2.map UInt64.toNat) =
      a.exact.alloc r.size.toNat r.align.val.toNat := by
  have start : alignUp a.used.toNat r.align.val.toNat < 2 ^ 64 :=
    Nat.lt_of_le_of_lt (Nat.le_add_right _ _) small
  unfold Arena.alloc exact
  dsimp only
  rw [← Request.stop]
  rcases serve_cases a r with ⟨full, run⟩ | ⟨fits, used, offset, run, stop, at_offset⟩
  · rw [Nat.mod_eq_of_lt small] at full
    rw [run, if_pos full]
    rfl
  · rw [Nat.mod_eq_of_lt small] at fits stop
    rw [Nat.mod_eq_of_lt start] at at_offset
    rw [run, if_neg (Nat.not_lt_of_le fits), Option.map_some, at_offset, stop]

/-! ### Sequences of calls -/

/-- What the callers of `alloc` rely on. -/
structure Sound (cap : Nat) (blocks : List Block) : Prop where
  placed : ∀ b ∈ blocks, b.align ∣ b.extent.offset ∧ b.extent.stop ≤ cap
  apart : (blocks.map Block.extent).Pairwise Extent.Apart

/-- No request that passes the test has an exact end of `2^64` or more, unless it is for
nothing and all that is served after it is for nothing too. -/
def Clean (cap : Nat) : Nat → List Request → Prop
  | _, [] => True
  | used, r :: rs =>
    if cap < r.stop used % 2 ^ 64 then Clean cap used rs
    else if r.stop used < 2 ^ 64 then Clean cap (r.stop used) rs
    else r.size = 0 ∧ ∀ q ∈ rs, q.size = 0 ∨ cap < q.size.toNat

/-- The arena while no end has passed `2^64`: the blocks end where `used_` is, and the first
one that is not empty starts at the beginning. -/
structure Laid (cap used : Nat) (old : List Block) : Prop where
  sound : Sound cap old
  ended : ∀ b ∈ old, b.extent.stop ≤ used
  first : 0 < used → ∃ b ∈ old, b.extent.offset = 0 ∧ 0 < b.extent.size

theorem sound_append {blocks : List Block} : Sound cap (old ++ blocks) ↔
    Sound cap old ∧ Sound cap blocks ∧
      ∀ b ∈ old, ∀ c ∈ blocks, b.extent.Apart c.extent := by
  constructor
  · rintro ⟨placed, apart⟩
    rw [List.map_append, List.pairwise_append] at apart
    obtain ⟨apart_old, apart_new, across⟩ := apart
    refine ⟨⟨fun b mem => placed b (by simp [mem]), apart_old⟩,
      ⟨fun b mem => placed b (by simp [mem]), apart_new⟩, ?_⟩
    intro b mem_b c mem_c
    exact across _ (List.mem_map_of_mem mem_b) _ (List.mem_map_of_mem mem_c)
  · rintro ⟨sound_old, sound_new, across⟩
    refine ⟨?_, ?_⟩
    · intro b mem
      rcases List.mem_append.mp mem with mem | mem
      · exact sound_old.placed b mem
      · exact sound_new.placed b mem
    · rw [List.map_append, List.pairwise_append]
      refine ⟨sound_old.apart, sound_new.apart, ?_⟩
      intro e mem_e f mem_f
      obtain ⟨b, mem_b, rfl⟩ := List.mem_map.mp mem_e
      obtain ⟨c, mem_c, rfl⟩ := List.mem_map.mp mem_f
      exact across b mem_b c mem_c

theorem alignUp_zero (align : Alignment) : alignUp 0 align.val.toNat = 0 := by
  have pos := align.pos
  unfold alignUp
  rw [Nat.div_eq_of_lt (by omega), Nat.zero_mul]

/-- Rounding up a word stays within the words, or comes to `2^64`. -/
theorem alignUp_le_words (used : UInt64) (align : Alignment) :
    alignUp used.toNat align.val.toNat ≤ 2 ^ 64 :=
  alignUp_le align.pos align.dvd_words used.toNat_lt.le

theorem laid_nil : Laid cap 0 [] where
  sound := ⟨by simp, by simp⟩
  ended := by simp
  first none := by omega

/-- A block that ends below `2^64` is laid behind the others. -/
theorem Laid.served (laid : Laid cap used old) (fits : r.stop used ≤ cap) :
    Laid cap (r.stop used)
      (old ++ [⟨⟨alignUp used r.align.val.toNat, r.size.toNat⟩, r.align.val.toNat⟩]) where
  sound := by
    refine ⟨?_, ?_⟩
    · intro b mem
      rcases List.mem_append.mp mem with mem | mem
      · exact laid.sound.placed b mem
      · obtain rfl := List.mem_singleton.mp mem
        exact ⟨dvd_alignUp _ _, fits⟩
    · rw [List.map_append]
      apply Extent.pairwise_concat laid.sound.apart
      intro e mem
      obtain ⟨b, mem_b, rfl⟩ := List.mem_map.mp mem
      exact (laid.ended b mem_b).trans (le_alignUp r.align.pos)
  ended := by
    intro b mem
    rcases List.mem_append.mp mem with mem | mem
    · have ended := laid.ended b mem
      have rounded : used ≤ alignUp used r.align.val.toNat := le_alignUp r.align.pos
      unfold Request.stop
      omega
    · obtain rfl := List.mem_singleton.mp mem
      exact le_rfl
  first := by
    intro pos
    by_cases started : 0 < used
    · obtain ⟨b, mem, first⟩ := laid.first started
      exact ⟨b, by simp [mem], first⟩
    · obtain rfl : used = 0 := by omega
      unfold Request.stop at pos
      rw [alignUp_zero] at pos ⊢
      refine ⟨_, List.mem_append_right _ (List.mem_singleton_self _), rfl, ?_⟩
      dsimp only
      omega

/-! ### Past the end of the words -/

/-- From `used_ = 0` no exact end is `2^64` or more. -/
theorem stop_zero (r : Request) : r.stop 0 = r.size.toNat := by
  rw [Request.stop, alignUp_zero, Nat.zero_add]

theorem stop_zero_mod (r : Request) : r.stop 0 % 2 ^ 64 = r.size.toNat := by
  rw [stop_zero, Nat.mod_eq_of_lt r.size.toNat_lt]

/-- While nothing but empty blocks is served from `used_ = 0`, they all lie at the beginning. -/
theorem served_of_idle (reset : a.used = 0)
    (idle : ∀ q ∈ rs, q.size = 0 ∨ a.cap.toNat < q.size.toNat) :
    ∀ b ∈ served rs a, b.extent = ⟨0, 0⟩ := by
  induction rs generalizing a with
  | nil => simp [served]
  | cons r rs ih =>
    have used : a.used.toNat = 0 := by rw [reset]; rfl
    obtain ⟨head, idle⟩ := List.forall_mem_cons.mp idle
    have cases := serve_cases a r
    rw [used, stop_zero_mod, alignUp_zero] at cases
    rcases cases with ⟨full, run⟩ | ⟨fits, used', offset, run, stop, at_offset⟩
    · rw [served, run]
      exact ih reset idle
    · have nothing : r.size = 0 := head.resolve_right (Nat.not_lt_of_le fits)
      rw [nothing] at stop
      rw [served, run]
      refine List.forall_mem_cons.mpr ⟨?_, ih (UInt64.toNat_inj.mp stop) idle⟩
      rw [nothing, at_offset]
      rfl

/-- The first block that is not empty starts at the beginning when `used_ = 0`. -/
theorem served_first (reset : a.used = 0) {q : Request} (mem : q ∈ rs) (pos : q.size ≠ 0)
    (fits : q.size.toNat ≤ a.cap.toNat) :
    ∃ b ∈ served rs a, b.extent.offset = 0 ∧ 0 < b.extent.size := by
  induction rs generalizing a with
  | nil => cases mem
  | cons r rs ih =>
    have used : a.used.toNat = 0 := by rw [reset]; rfl
    have cases := serve_cases a r
    rw [used, stop_zero_mod, alignUp_zero] at cases
    rcases cases with ⟨full, run⟩ | ⟨fits_r, used', offset, run, stop, at_offset⟩
    · rcases List.mem_cons.mp mem with rfl | mem
      · omega
      · rw [served, run]
        exact ih reset mem fits
    · rw [served, run]
      by_cases nothing : r.size = 0
      · have mem : q ∈ rs := by
          rcases List.mem_cons.mp mem with rfl | mem
          · exact absurd nothing pos
          · exact mem
        rw [nothing] at stop
        obtain ⟨b, mem_b, first⟩ := ih (a := { a with used := used' })
          (UInt64.toNat_inj.mp stop) mem fits
        exact ⟨b, List.mem_cons_of_mem _ mem_b, first⟩
      · refine ⟨_, List.mem_cons_self, at_offset, ?_⟩
        exact Nat.pos_of_ne_zero fun zero => nothing (UInt64.toNat_inj.mp zero)

/-- Empty blocks at the beginning are in nobody's way. -/
theorem sound_of_empty {blocks : List Block} (empty : ∀ b ∈ blocks, b.extent = ⟨0, 0⟩) :
    Sound cap blocks where
  placed b mem := by
    rw [empty b mem]
    exact ⟨Nat.dvd_zero _, Nat.zero_le _⟩
  apart := by
    rw [List.pairwise_map]
    apply List.pairwise_of_forall_mem_list
    intro b _ c mem
    exact Extent.apart_of_size_eq_zero (congrArg Extent.size (empty c mem))

/-- If the block of a wrapped request lies within the capacity, its rounded offset itself has come
to `2^64`. -/
theorem turned_of_inside {offset : Nat} (past : 2 ^ 64 ≤ r.stop a.used.toNat)
    (at_offset : offset = alignUp a.used.toNat r.align.val.toNat % 2 ^ 64)
    (inside : offset + r.size.toNat ≤ a.cap.toNat) :
    alignUp a.used.toNat r.align.val.toNat = 2 ^ 64 := by
  have rounded := alignUp_le_words a.used r.align
  have full_cap : a.cap.toNat < 2 ^ 64 := a.cap.toNat_lt
  by_contra below
  rw [Nat.mod_eq_of_lt (by omega)] at at_offset
  unfold Request.stop at past
  omega

/-- After a request whose exact end is `2^64` or more, the blocks stay sound only if it and all
that is served after it are for nothing. -/
theorem wrapped_iff {old : List Block} (laid : Laid a.cap.toNat a.used.toNat old)
    (past : 2 ^ 64 ≤ r.stop a.used.toNat) (fits : r.stop a.used.toNat % 2 ^ 64 ≤ a.cap.toNat) :
    Sound a.cap.toNat (old ++ served (r :: rs) a) ↔
      r.size = 0 ∧ ∀ q ∈ rs, q.size = 0 ∨ a.cap.toNat < q.size.toNat := by
  have started : 0 < a.used.toNat := by
    by_contra fresh
    have zero : a.used.toNat = 0 := by omega
    rw [zero, stop_zero] at past
    exact absurd r.size.toNat_lt (Nat.not_lt_of_le past)
  obtain ⟨first, mem_first, start, pos_first⟩ := laid.first started
  have rounded := alignUp_le_words a.used r.align
  rcases serve_cases a r with ⟨full, -⟩ | ⟨-, used', offset, run, stop, at_offset⟩
  · omega
  have reset (turned : alignUp a.used.toNat r.align.val.toNat = 2 ^ 64) (nothing : r.size = 0) :
      used' = 0 := by
    apply UInt64.toNat_inj.mp
    rw [stop, Request.stop, turned, nothing]
    rfl
  rw [served, run, sound_append]
  dsimp only
  constructor
  · rintro ⟨-, ⟨placed, -⟩, across⟩
    have inside : offset.toNat + r.size.toNat ≤ a.cap.toNat := (placed _ List.mem_cons_self).2
    have turned := turned_of_inside past at_offset inside
    rw [turned, Nat.mod_self] at at_offset
    have nothing : r.size = 0 := by
      by_contra some
      refine Extent.not_apart_of_start start at_offset pos_first ?_
        (across first mem_first _ List.mem_cons_self)
      exact Nat.pos_of_ne_zero fun zero => some (UInt64.toNat_inj.mp zero)
    refine ⟨nothing, ?_⟩
    intro q mem
    by_contra! positive
    obtain ⟨b, mem_b, at_b, pos_b⟩ :=
      served_first (a := { a with used := used' }) (reset turned nothing) mem positive.1 positive.2
    exact Extent.not_apart_of_start start at_b pos_first pos_b
      (across first mem_first b (List.mem_cons_of_mem _ mem_b))
  · rintro ⟨nothing, idle⟩
    have turned : alignUp a.used.toNat r.align.val.toNat = 2 ^ 64 := by
      unfold Request.stop at past
      rw [nothing, UInt64.toNat_zero] at past
      omega
    rw [turned, Nat.mod_self] at at_offset
    have head : (⟨offset.toNat, r.size.toNat⟩ : Extent) = ⟨0, 0⟩ := by
      rw [at_offset, nothing]
      rfl
    have empty : ∀ b ∈ (⟨⟨offset.toNat, r.size.toNat⟩, r.align.val.toNat⟩ : Block) ::
        served rs { a with used := used' }, b.extent = ⟨0, 0⟩ :=
      List.forall_mem_cons.mpr ⟨head, served_of_idle (reset turned nothing) idle⟩
    refine ⟨laid.sound, sound_of_empty empty, ?_⟩
    intro b _ c mem
    exact Extent.apart_of_size_eq_zero (congrArg Extent.size (empty c mem))

/-! ### Between two resets -/

/-- The blocks of a sequence of calls stay sound behind those of earlier calls. -/
theorem sound_served_iff (laid : Laid a.cap.toNat a.used.toNat old) :
    Sound a.cap.toNat (old ++ served rs a) ↔ Clean a.cap.toNat a.used.toNat rs := by
  induction rs generalizing a old with
  | nil => simp [served, Clean, laid.sound]
  | cons r rs ih =>
    rcases serve_cases a r with ⟨full, run⟩ | ⟨fits, used', offset, run, stop, at_offset⟩
    · rw [served, run, Clean, if_pos full]
      exact ih laid
    · rw [Clean, if_neg (Nat.not_lt_of_le fits)]
      by_cases small : r.stop a.used.toNat < 2 ^ 64
      · have start : alignUp a.used.toNat r.align.val.toNat < 2 ^ 64 :=
          Nat.lt_of_le_of_lt (Nat.le_add_right _ _) small
        rw [Nat.mod_eq_of_lt small] at fits stop
        rw [Nat.mod_eq_of_lt start] at at_offset
        have step := laid.served fits
        rw [← stop, ← at_offset] at step
        rw [if_pos small, served, run, ← stop, ← ih (a := { a with used := used' }) step,
          List.append_assoc]
        rfl
      · rw [if_neg small]
        exact wrapped_iff laid (Nat.le_of_not_lt small) fits

/-- Between two resets of an arena, the non-null results are aligned, within the capacity and
apart exactly when no request that passes the test has an exact end of `2^64` or more, one for
nothing with nothing but empty blocks after it apart. -/
theorem sound_iff_clean (a : Arena64) (rs : List Request) :
    Sound a.cap.toNat (served rs a.reset) ↔ Clean a.cap.toNat 0 rs :=
  sound_served_iff (a := a.reset) laid_nil

/-- An alignment of eight bytes. -/
def word : Alignment := ⟨8, 3, rfl⟩

/-- A request for `2^64 - 8` bytes sets `used_` back to the beginning of the arena. -/
theorem wrapped_request : ¬ Sound 16 (served
    [.alloc 8 word, .alloc 0xFFFFFFFFFFFFFFF8 word, .alloc 8 word] (ofCapacity 16)) := by
  intro sound
  have apart := sound.apart
  revert apart
  decide

end

end FastGraph.Arena64
