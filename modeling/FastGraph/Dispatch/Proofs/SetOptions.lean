import FastGraph.Dispatch.Proofs.TimeToLive

/-!
# The words behind the value of a `SET`

The documented grammar has nothing there, or one option with a number. The loop over the words
looks for an option at each of them, takes the last one it finds and skips what it does not
know, so that the value is stored whatever the words are, unless one of the numbers cannot be
read; there is no path to an error reply.
-/

namespace FastGraph.Dispatcher
open Program RespEncoder

/-! ### The documented grammar -/

/-- The integer that a text is: digits behind an optional sign, and nothing else. -/
def integerText (s : Bytes) : Option Int :=
  let signed := scanSign s
  if signed.2 ≠ [] ∧ signed.2.all isDigit then
    some (if signed.1 then -(digitsValue signed.2 : Int) else digitsValue signed.2)
  else none

/-- `SET key value [EX seconds | PX milliseconds]` (`README.md:69`): the milliseconds that the
words behind the value ask for, `-1` (`kv_engine.hpp:12`) where there are none. -/
def lifetime : List Bytes → Option Int
  | [] => some (-1)
  | [opt, num] =>
    if toUpper opt = str "EX" then (integerText num).map (1000 * ·)
    else if toUpper opt = str "PX" then integerText num
    else none
  | _ => none

/-- A text that is an integer is read as that integer. -/
theorem scanInt_of_integerText {s : Bytes} {n : Int} (text : integerText s = some n) :
    scanInt s = some n := by
  unfold integerText at text
  dsimp only at text
  split at text
  · rename_i whole
    obtain ⟨nonempty, digits⟩ := whole
    have run : (scanSign s).2.takeWhile isDigit = (scanSign s).2 :=
      List.takeWhile_eq_self_iff.mpr fun b mem => List.all_eq_true.mp digits b mem
    have start : s.dropWhile isSpace = s := by
      cases s with
      | nil => rfl
      | cons b rest =>
        apply List.dropWhile_cons_of_neg
        by_cases minus : b = charByte '-'
        · subst minus
          decide
        · by_cases plus : b = charByte '+'
          · subst plus
            decide
          · have digit : isDigit b = true := by
              simp only [scanSign, if_neg minus, if_neg plus, List.all_cons,
                Bool.and_eq_true] at digits
              exact digits.1
            simp [isSpace_digit digit]
    unfold scanInt
    simp only [start, run, if_neg nonempty]
    exact text
  · cases text

/-- `std::stoll` reads such a text exactly if the integer fits into 64 bits. -/
theorem stoll_integerText {s : Bytes} {n : Int} (text : integerText s = some n) (m : Int) :
    stoll s = .ok m ↔ m = n ∧ -2 ^ 63 ≤ n ∧ n < 2 ^ 63 := by
  unfold stoll stoInt
  rw [scanInt_of_integerText text]
  change (if -2 ^ 63 ≤ n ∧ n < 2 ^ 63 then Except.ok n else Except.error NumError.outOfRange) =
    Except.ok m ↔ _
  by_cases range : -2 ^ 63 ≤ n ∧ n < 2 ^ 63
  · rw [if_pos range, Except.ok.injEq]
    exact ⟨fun same => ⟨same.symm, range⟩, fun same => same.1.symm⟩
  · rw [if_neg range]
    exact iff_of_false (by simp) fun same => range same.2

section
variable {W D : Type} {d : Dispatcher W D}

/-- One option of the documented grammar comes out as the milliseconds it asks for exactly if
they fit into 64 bits. -/
theorem outcome_setOption_iff {name cmd opt num : Bytes} {unit n ttlMs : Int}
    (takes : TakesUnit name cmd unit) (option : toUpper opt = name)
    (text : integerText num = some n) :
    (setOption opt num ttlMs : Action W D Int).outcome d = Outcome.returned (d, unit * n) ↔
      -2 ^ 63 ≤ unit * n ∧ unit * n < 2 ^ 63 := by
  have within : -2 ^ 63 ≤ unit * n ∧ unit * n < 2 ^ 63 → -2 ^ 63 ≤ n ∧ n < 2 ^ 63 := by
    cases takes with
    | seconds => omega
    | milliseconds => omega
  by_cases small : -2 ^ 63 ≤ n ∧ n < 2 ^ 63
  · have read : stoll num = .ok n := (stoll_integerText text n).mpr ⟨rfl, small⟩
    rw [outcome_setOption takes option read, Outcome.returned_inj, Prod.mk.injEq]
    constructor
    · rintro ⟨-, same⟩
      rw [← same]
      exact toInt64_range _
    · intro range
      exact ⟨rfl, toInt64_of_range range.1 range.2⟩
  · apply iff_of_false _ fun range => small (within range)
    have unread : ∀ m, stoll num ≠ .ok m := by
      intro m read
      exact small ((stoll_integerText text m).mp read).2
    have thrown : ∃ e, stoll num = .error e := by
      cases read : stoll num with
      | ok m => exact absurd read (unread m)
      | error e => exact ⟨e, rfl⟩
    obtain ⟨e, thrown⟩ := thrown
    unfold setOption
    rw [thrown]
    cases takes with
    | seconds =>
      rw [if_pos option]
      intro same
      cases same
    | milliseconds =>
      have other : ¬ str "PX" = str "EX" := by decide
      rw [option, if_neg other, if_pos rfl]
      intro same
      cases same

/-- The loop over the documented words comes out as what they ask for exactly if that fits. -/
theorem outcome_setOptions_iff {tail : List Bytes} {ms : Int} (asked : lifetime tail = some ms) :
    (setOptions tail (-1) : Action W D Int).outcome d = Outcome.returned (d, ms) ↔
      -2 ^ 63 ≤ ms ∧ ms < 2 ^ 63 := by
  have single (opt num : Bytes) : (setOptions [opt, num] (-1) : Action W D Int).outcome d =
      (setOption opt num (-1) : Action W D Int).outcome d := by
    unfold setOptions setOptions
    rw [bind_pure]
  rcases tail with _ | ⟨opt, _ | ⟨num, _ | ⟨third, more⟩⟩⟩
  · cases asked
    exact iff_of_true rfl (by decide)
  · cases asked
  · rw [single]
    change (if toUpper opt = str "EX" then (integerText num).map (1000 * ·)
      else if toUpper opt = str "PX" then integerText num else none) = some ms at asked
    split at asked
    · rename_i option
      obtain ⟨n, text, rfl⟩ := Option.map_eq_some_iff.mp asked
      exact outcome_setOption_iff .seconds option text
    · split at asked
      · rename_i option
        have exact : (setOption opt num (-1) : Action W D Int).outcome d =
            Outcome.returned (d, 1 * ms) ↔ -2 ^ 63 ≤ 1 * ms ∧ 1 * ms < 2 ^ 63 :=
          outcome_setOption_iff .milliseconds option asked
        rwa [one_mul] at exact
      · cases asked
  · cases asked

end

section
variable {W D : Type} [Zero W] [One W] [Add W] [LT W] [DecidableLT W]
variable [Inhabited D] [BEq D] [LT D] [DecidableLT D] [LE D] [DecidableLE D]
variable (lib : FloatLib W D) (env : Env) {d d' : Dispatcher W D}
variable {word key val reply : Bytes} {tail : List Bytes}

/-- `SET` answers nothing but `OK`. -/
theorem reply_set (named : toUpper word = str "SET")
    (returned : dispatch lib env d (word :: key :: val :: tail) = Outcome.returned (d', reply)) :
    reply = okReply := by
  unfold dispatch at returned
  rw [answer_taken lib env (h := .kv) (b := ⟨str "SET", (3 ≤ ·), Dispatcher.set env⟩)
    (by simp [branches, kvBranches]) (not_mem_persistent (by simp)) named (by simp)] at returned
  change (setOptions tail (-1) >>= _ : Action W D Bytes).outcome d = _ at returned
  obtain ⟨d₁, ms, -, stored⟩ := outcome_bind_returned returned
  obtain ⟨d₂, inserted, -, answered⟩ := outcome_bind_returned stored
  cases answered
  rfl

/-- `SET` stores the value with the lifetime that the words behind it ask for, or, where they
are not the documented ones, it answers with an error and changes nothing. -/
def Documented (d : Dispatcher W D) (word key val : Bytes) (tail : List Bytes) : Prop :=
  match lifetime tail with
  | some ms =>
    (setOptions tail (-1) : Action W D Int).outcome d = Outcome.returned (d, ms) ∧
      ∃ kv inserted, d.kv.set key val ms env.now = some (kv, inserted) ∧
        dispatch lib env d (word :: key :: val :: tail) =
          Outcome.returned ({ d with kv := kv }, okReply)
  | none => ∃ reply, dispatch lib env d (word :: key :: val :: tail) =
      Outcome.returned (d, reply) ∧ str "-ERR" <+: reply

/-- `SET` does what is documented exactly if the words behind the value are the documented ones
and the milliseconds fit into 64 bits. -/
theorem documented_iff (history : List KVEngine.Timed)
    (reached : KVEngine.run history .empty = some d.kv) (named : toUpper word = str "SET") :
    Documented lib env d word key val tail ↔
      ∃ ms, lifetime tail = some ms ∧ -2 ^ 63 ≤ ms ∧ ms < 2 ^ 63 := by
  obtain ⟨kv₀, ran, rep⟩ := KVEngine.run_refines KVEngine.represents_empty history
  rw [reached] at ran
  cases ran
  unfold Documented
  cases asked : lifetime tail with
  | none =>
    simp only [reduceCtorEq, false_and, exists_false, iff_false]
    intro ⟨reply, returned, error⟩
    rw [reply_set lib env named returned] at error
    exact absurd error (by decide)
  | some ms =>
    simp only [Option.some.injEq, exists_eq_left']
    constructor
    · intro ⟨options, _⟩
      exact (outcome_setOptions_iff asked).mp options
    · intro fits
      have options := (outcome_setOptions_iff (W := W) (D := D) (d := d) asked).mpr fits
      obtain ⟨kv, inserted, called, returned, -⟩ := dispatch_set lib env rep key val named options
      exact ⟨options, kv, inserted, called, returned⟩

end

/-- A value stored for five seconds. -/
theorem documented_iff_five_seconds :
    Documented wholeLib calmEnv fresh (str "set") (str "k") (str "v") [str "Ex", str "+5"] ↔
      ∃ ms, lifetime [str "Ex", str "+5"] = some ms ∧ -2 ^ 63 ≤ ms ∧ ms < 2 ^ 63 :=
  documented_iff wholeLib calmEnv [] rfl (by decide)

/-- A client that asks to store a value only if there is none overwrites the one there is. -/
theorem set_ignores_nx :
    ∃ d d', dispatch wholeLib calmEnv fresh [str "SET", str "k", str "v"] =
        Outcome.returned (d, okReply) ∧
      dispatch wholeLib calmEnv d [str "SET", str "k", str "w", str "NX"] =
        Outcome.returned (d', okReply) ∧
      (d.kv.get (str "k") 0).map Prod.snd = some (some (str "v")) ∧
      (d'.kv.get (str "k") 0).map Prod.snd = some (some (str "w")) ∧
      ¬ Documented wholeLib calmEnv d (str "SET") (str "k") (str "w") [str "NX"] := by
  refine ⟨_, _, rfl, rfl, by decide, by decide, ?_⟩
  intro ⟨reply, returned, error⟩
  cases returned

end FastGraph.Dispatcher
