import FastGraph.Misc.Words
import FastGraph.Protocol.Proofs.Stability

/-!
# Commands on a line

A buffer that does not begin with an array is a line up to the first line end. Its words are the
arguments, and the words of a command joined by spaces are its arguments again.
-/

namespace FastGraph.RespParser

section
variable {b line rest w l : Bytes} {out : List Bytes}

/-- The byte between two words. -/
def space : UInt8 := charByte ' '

/-! ### The first line end -/

theorem crlf_prefix_iff {a c : UInt8} : crlf <+: a :: c :: l ↔ a = cr ∧ c = lf := by
  rw [crlf, List.cons_prefix_cons, List.cons_prefix_cons]
  constructor
  · rintro ⟨first, second, -⟩
    exact ⟨first.symm, second.symm⟩
  · rintro ⟨first, second⟩
    exact ⟨first.symm, second.symm, List.nil_prefix⟩

theorem not_crlf_infix_singleton (a : UInt8) : ¬ crlf <:+: [a] := by
  intro inside
  have := inside.length_le
  simp [crlf] at this

theorem crlfIndex_eq_none_iff : crlfIndex l = none ↔ ¬ crlf <:+: l := by
  induction l with
  | nil => simp [crlfIndex, crlf]
  | cons a l ih =>
    cases l with
    | nil => exact iff_of_true rfl (not_crlf_infix_singleton a)
    | cons c l =>
      rw [crlfIndex, List.infix_cons_iff, crlf_prefix_iff]
      by_cases here : a = cr ∧ c = lf
      · rw [if_pos here]
        exact iff_of_false (Option.some_ne_none _) fun none => none (Or.inl here)
      · rw [if_neg here, Option.map_eq_none_iff, ih, or_iff_right here]

/-- A line end does not begin in a line that does not hold one, not even with a `cr` behind it. -/
theorem crlfIndex_first (clean : ¬ crlf <:+: line ++ [cr]) (rest : Bytes) :
    crlfIndex (line ++ crlf ++ rest) = some line.length := by
  induction line with
  | nil => simp [crlf, crlfIndex]
  | cons a line ih =>
    have tail := ih fun inside => clean (List.infix_cons_iff.mpr (Or.inr inside))
    cases line with
    | nil =>
      have elsewhere : ¬ (a = cr ∧ cr = lf) := fun both => absurd both.2 (by decide)
      simp only [List.nil_append, List.cons_append, crlf, crlfIndex] at tail ⊢
      rw [if_neg elsewhere, tail]
      rfl
    | cons c line =>
      have elsewhere : ¬ (a = cr ∧ c = lf) := by
        intro both
        exact clean (List.infix_cons_iff.mpr (Or.inl (crlf_prefix_iff.mpr both)))
      simp only [List.cons_append] at tail ⊢
      rw [crlfIndex, if_neg elsewhere, tail]
      rfl

/-- The first line end of a list that holds one. -/
theorem exists_first (inside : crlf <:+: l) :
    ∃ line rest, l = line ++ crlf ++ rest ∧ ¬ crlf <:+: line ++ [cr] := by
  induction l with
  | nil =>
    have := inside.length_le
    simp [crlf] at this
  | cons a l ih =>
    cases l with
    | nil => exact absurd inside (not_crlf_infix_singleton a)
    | cons c l =>
      by_cases here : a = cr ∧ c = lf
      · refine ⟨[], l, ?_, not_crlf_infix_singleton cr⟩
        rw [here.1, here.2]
        rfl
      · rw [List.infix_cons_iff, crlf_prefix_iff, or_iff_right here] at inside
        obtain ⟨line, rest, cut, clean⟩ := ih inside
        refine ⟨a :: line, rest, by rw [cut]; rfl, ?_⟩
        rw [List.cons_append, List.infix_cons_iff, not_or]
        refine ⟨?_, clean⟩
        cases line with
        | nil =>
          rw [List.nil_append, crlf_prefix_iff]
          exact fun both => absurd both.2 (by decide)
        | cons c' line =>
          obtain ⟨rfl, -⟩ := List.cons.inj cut
          rw [List.cons_append, crlf_prefix_iff]
          exact here

/-! ### The loop over the words -/

theorem parseInlineLoop_eq {fuel start : Nat} (enough : line.length ≤ start + fuel)
    (args : List Bytes) :
    parseInlineLoop line fuel start args = args ++ words space (line.drop start) := by
  induction fuel generalizing start args with
  | zero =>
    have nothing : line.drop start = [] := List.drop_eq_nil_of_le enough
    rw [parseInlineLoop, nothing]
    exact (List.append_nil args).symm
  | succ fuel ih =>
    rw [parseInlineLoop]
    split
    · rename_i ended
      rw [List.drop_eq_nil_of_le ended]
      exact (List.append_nil args).symm
    · generalize found : (line.drop start).takeWhile (· ≠ charByte ' ') = word
      have clean : space ∉ word := by
        intro mem
        rw [← found] at mem
        simpa [space] using List.mem_takeWhile_imp mem
      have cut : line.drop start = word ++ (line.drop start).dropWhile (· ≠ charByte ' ') := by
        rw [← found, List.takeWhile_append_dropWhile]
      have enough' : line.length ≤ start + word.length + 1 + fuel := by omega
      have later := ih enough'
      have behind : line.drop (start + word.length + 1) =
          ((line.drop start).dropWhile (· ≠ charByte ' ')).drop 1 := by
        rw [Nat.add_assoc, ← List.drop_drop, ← List.drop_drop]
        nth_rewrite 1 [cut]
        rw [List.drop_left]
      dsimp only
      rw [later, behind]
      cases next : (line.drop start).dropWhile (· ≠ charByte ' ') with
      | nil =>
        rw [cut, next, List.append_nil, words_of_notMem clean]
        split <;> simp [words]
      | cons c l =>
        have separator : c = space := by
          have head := List.head?_dropWhile_not (· ≠ charByte ' ') (line.drop start)
          rw [next] at head
          simpa [space] using head
        rw [cut, next, separator, words_cons clean, List.drop_one, List.tail_cons]
        split <;> simp

/-! ### The parse -/

theorem parse_eq_parseInline (nonempty : b ≠ []) (isLine : b.head? ≠ some (charByte '*')) :
    parse b out = parseInline b out := by
  cases b with
  | nil => exact absurd rfl nonempty
  | cons c b =>
    have other : c ≠ charByte '*' := fun same => isLine (by rw [same]; rfl)
    exact if_neg other

theorem parseInline_of_none (none : ¬ crlf <:+: b) : parseInline b out = (.incomplete, b, out) := by
  have header : findCrlf b 0 = -1 := by
    rw [findCrlf, List.drop_zero, crlfIndex_eq_none_iff.mpr none]
  rw [parseInline, header]
  rfl

theorem parseInline_of_first (small : b.length < 2 ^ 31) (cut : b = line ++ crlf ++ rest)
    (clean : ¬ crlf <:+: line ++ [cr]) : parseInline b out =
      if words space line = [] then (.error, rest, out) else (.complete, rest, words space line) := by
  have found : crlfIndex (b.drop 0) = some line.length := by
    rw [List.drop_zero, cut]
    exact crlfIndex_first clean rest
  obtain ⟨header, inside⟩ := findCrlf_of_found small found
  rw [Nat.zero_add] at header inside
  have front : substr b 0 (toSizeT line.length) = line := by
    rw [toSizeT_of_nonneg (by omega) (by omega), Int.toNat_natCast, substr, List.drop_zero, cut,
      List.append_assoc, List.take_left]
  have behind : b.drop (toSizeT (toInt32 (line.length + 2))) = rest := by
    have length : ((line.length : Int) + 2).toNat = (line ++ crlf).length := by
      rw [List.length_append, show crlf.length = 2 from rfl]
      omega
    rw [toInt32_of_range (by omega) (by omega), toSizeT_of_nonneg (by omega) (by omega), cut, length,
      List.drop_left]
  have arrived : ¬ (line.length : Int) < 0 := by omega
  have loop : parseInlineLoop line line.length 0 [] = words space line :=
    parseInlineLoop_eq (Nat.le_add_left _ _) []
  rw [parseInline, header]
  simp only [arrived, if_false, front, behind, loop]

/-- What `parse` makes of a line. -/
structure LineParsed (b : Bytes) (out : List Bytes) : Prop where
  incomplete_iff : (parse b out).1 = .incomplete ↔ ¬ crlf <:+: b
  unchanged : ¬ crlf <:+: b → parse b out = (.incomplete, b, out)
  line : crlf <:+: b → ∃ line rest, b = line ++ crlf ++ rest ∧ ¬ crlf <:+: line ++ [cr] ∧
    parse b out =
      if words space line = [] then (.error, rest, out) else (.complete, rest, words space line)

theorem lineParsed (nonempty : b ≠ []) (isLine : b.head? ≠ some (charByte '*'))
    (small : b.length < 2 ^ 31) (out : List Bytes) : LineParsed b out := by
  have enter : parse b out = parseInline b out := parse_eq_parseInline nonempty isLine
  have waits (none : ¬ crlf <:+: b) : parse b out = (.incomplete, b, out) :=
    enter.trans (parseInline_of_none none)
  have ends (inside : crlf <:+: b) : ∃ line rest, b = line ++ crlf ++ rest ∧
      ¬ crlf <:+: line ++ [cr] ∧ parse b out =
        if words space line = [] then (.error, rest, out) else (.complete, rest, words space line) := by
    obtain ⟨line, rest, cut, clean⟩ := exists_first inside
    exact ⟨line, rest, cut, clean, enter.trans (parseInline_of_first small cut clean)⟩
  refine ⟨⟨?_, fun none => by rw [waits none]⟩, waits, ends⟩
  intro incomplete inside
  obtain ⟨line, rest, -, -, parsed⟩ := ends inside
  rw [parsed] at incomplete
  split at incomplete <;> cases incomplete

/-! ### Commands joined by spaces -/

/-- A line end in two lists behind one another is in one of them if the second does not begin
with the byte it ends with. -/
theorem crlf_infix_append (apart : l.head? ≠ some lf) (inside : crlf <:+: w ++ l) :
    crlf <:+: w ∨ crlf <:+: l := by
  induction w with
  | nil => exact Or.inr inside
  | cons a w ih =>
    rw [List.cons_append, List.infix_cons_iff] at inside
    rcases inside with first | later
    · cases w with
      | nil =>
        cases l with
        | nil => exact absurd first.isInfix (not_crlf_infix_singleton a)
        | cons c l =>
          rw [List.nil_append, crlf_prefix_iff] at first
          exact absurd (congrArg Option.some first.2) apart
      | cons c w =>
        rw [List.cons_append, crlf_prefix_iff] at first
        exact Or.inl (List.infix_cons_iff.mpr (Or.inl (crlf_prefix_iff.mpr first)))
    · exact (ih later).imp_left fun inside => List.infix_cons_iff.mpr (Or.inr inside)

theorem not_crlf_infix_joined {args : List Bytes} (clean : ∀ a ∈ args, ¬ crlf <:+: a) :
    ¬ crlf <:+: [space].intercalate args ++ [cr] := by
  induction args with
  | nil => exact not_crlf_infix_singleton cr
  | cons a args ih =>
    have first := clean a List.mem_cons_self
    have later := ih fun a mem => clean a (List.mem_cons_of_mem _ mem)
    cases args with
    | nil =>
      rw [List.intercalate_singleton]
      intro inside
      exact (crlf_infix_append (by decide) inside).elim first (not_crlf_infix_singleton cr)
    | cons a' args =>
      rw [List.intercalate_cons_cons, List.append_assoc, List.append_assoc, List.singleton_append]
      intro inside
      have apart : space ≠ lf := by decide
      rcases crlf_infix_append (by simpa using apart) inside with here | there
      · exact first here
      · rw [List.infix_cons_iff] at there
        refine there.elim (fun begins => ?_) later
        rw [crlf, List.cons_prefix_cons] at begins
        exact absurd begins.1 (by decide)

/-- A line parses to its words, and a command whose arguments are joined by single spaces parses
to these. -/
theorem parse_line :
    (∀ b out, b ≠ [] → b.head? ≠ some (charByte '*') → b.length < 2 ^ 31 → LineParsed b out) ∧
    ∀ (args : List Bytes) out, args ≠ [] → (∀ a ∈ args, a ≠ [] ∧ space ∉ a ∧ ¬ crlf <:+: a) →
      (∀ a ∈ args.head?, a.head? ≠ some (charByte '*')) →
      ([space].intercalate args ++ crlf).length < 2 ^ 31 →
      parse ([space].intercalate args ++ crlf) out = (.complete, [], args) := by
  refine ⟨fun b out some isLine small => lineParsed some isLine small out, ?_⟩
  intro args out given clean isLine small
  have nonempty : [space].intercalate args ++ crlf ≠ [] := by simp [crlf]
  have head : ([space].intercalate args ++ crlf).head? ≠ some (charByte '*') := by
    cases args with
    | nil => exact absurd rfl given
    | cons a args =>
      have first := isLine a rfl
      obtain ⟨c, a, rfl⟩ := List.exists_cons_of_ne_nil (clean a List.mem_cons_self).1
      cases args with
      | nil => simpa using first
      | cons a' args => simpa using first
  have cut : [space].intercalate args ++ crlf = [space].intercalate args ++ crlf ++ [] :=
    (List.append_nil _).symm
  have back := words_intercalate given fun a mem => ⟨(clean a mem).1, (clean a mem).2.1⟩
  rw [parse_eq_parseInline nonempty head, parseInline_of_first small cut
    (not_crlf_infix_joined fun a mem => (clean a mem).2.2), back, if_neg given]

/-- Spaces in front and between the words, and a word that ends with a `cr`. -/
example : parse (str "  GET  k" ++ [cr] ++ crlf ++ str "rest") [] =
    (.complete, str "rest", [str "GET", str "k" ++ [cr]]) := by
  decide

end

end FastGraph.RespParser
