import FastGraph.Misc.LittleEndian
import FastGraph.Misc.UnorderedMap

/-!
# Files of the C library

A disk maps paths to contents. A file being written collects what its `fwrite`s store,
each of which may be short; a file being read is the bytes that are left of it.
-/

namespace FastGraph

/-- The files by path. -/
abbrev Disk := UnorderedMap Bytes Bytes

/-- A file being written. `stores` lists how many bytes the next `fwrite`s store at most; one
that it does not reach stores everything. `error` is the error indicator. -/
structure OutFile where
  contents : Bytes
  stores : List Nat
  error : Bool
  deriving DecidableEq, Repr

/-- A file being read: the bytes from its position on. -/
abbrev InFile := Bytes

/-- A file that `fopen` has made or emptied. -/
def fopenWrite (stores : List Nat) : OutFile := ⟨[], stores, false⟩

/-- `fwrite`, and whether it stored everything. -/
def fwrite (f : OutFile) (data : Bytes) : OutFile × Bool :=
  match f.stores with
  | [] => ({ f with contents := f.contents ++ data }, true)
  | n :: stores =>
    (⟨f.contents ++ data.take n, stores, f.error || decide (n < data.length)⟩,
      decide (data.length ≤ n))

/-- `fread` of `n` bytes: those that were left, whether that is all `n`, and the rest. -/
def fread (n : Nat) (f : InFile) : Bytes × Bool × InFile :=
  (f.take n, decide (n ≤ f.length), f.drop n)

theorem fread_append {n : Nat} {data : Bytes} (rest : Bytes) (length : data.length = n) :
    fread n (data ++ rest) = (data, true, rest) := by
  subst length
  simp [fread]

/-! ### Sequences of writes -/

/-- The writes store all of these chunks. -/
def Enough : List Nat → List Bytes → Prop
  | n :: stores, chunk :: chunks => chunk.length ≤ n ∧ Enough stores chunks
  | _, _ => True

/-- What an operation does that writes the chunks one after the other, and may give up after
one that was not stored. -/
structure Writes (op : OutFile → OutFile) (chunks : List Bytes) : Prop where
  stored : ∀ f, Enough f.stores chunks →
    op f = { f with contents := f.contents ++ chunks.flatten, stores := f.stores.drop chunks.length }
  short : ∀ f, ¬ Enough f.stores chunks → (op f).error = true
  keeps : ∀ f, f.error = true → (op f).error = true

@[simp] theorem enough_nil (stores : List Nat) : Enough stores [] := by
  cases stores <;> trivial

theorem enough_append {stores : List Nat} {xs ys : List Bytes} :
    Enough stores (xs ++ ys) ↔ Enough stores xs ∧ Enough (stores.drop xs.length) ys := by
  induction xs generalizing stores with
  | nil => simp
  | cons x xs ih =>
    cases stores with
    | nil => simp [Enough]
    | cons n stores => simp [Enough, ih, and_assoc]

theorem snd_fwrite {f : OutFile} {data : Bytes} :
    (fwrite f data).2 = true ↔ Enough f.stores [data] := by
  obtain ⟨contents, stores, error⟩ := f
  cases stores <;> simp [fwrite, Enough]

namespace Writes

theorem none : Writes id [] where
  stored f _ := by simp
  short f missing := absurd (enough_nil _) missing
  keeps f error := error

theorem fwrite (data : Bytes) : Writes (fun f => (fwrite f data).1) [data] where
  stored f enough := by
    obtain ⟨contents, stores, error⟩ := f
    cases stores with
    | nil => simp [FastGraph.fwrite]
    | cons n stores =>
      have all : data.length ≤ n := enough.1
      simp [FastGraph.fwrite, List.take_of_length_le all, all]
  short f missing := by
    obtain ⟨contents, stores, error⟩ := f
    cases stores with
    | nil => exact absurd trivial missing
    | cons n stores =>
      have less : n < data.length := by
        by_contra all
        exact missing ⟨not_lt.mp all, enough_nil _⟩
      simp [FastGraph.fwrite, less]
  keeps f error := by
    obtain ⟨contents, stores, _⟩ := f
    cases stores with
    | nil => exact error
    | cons n stores =>
      cases error
      simp [FastGraph.fwrite]

/-- One operation after the other. -/
theorem comp {op op' : OutFile → OutFile} {xs ys : List Bytes} (first : Writes op xs)
    (second : Writes op' ys) : Writes (fun f => op' (op f)) (xs ++ ys) where
  stored f enough := by
    rw [enough_append] at enough
    have done := first.stored f enough.1
    rw [done, second.stored _ enough.2]
    simp [List.append_assoc]
  short f missing := by
    rw [enough_append] at missing
    by_cases enough : Enough f.stores xs
    · apply second.short
      rw [first.stored f enough]
      exact fun later => missing ⟨enough, later⟩
    · exact second.keeps _ (first.short f enough)
  keeps f error := second.keeps _ (first.keeps f error)

/-- The second operation is made only if the first write stored everything. -/
theorem guarded (data : Bytes) {op : OutFile → OutFile} {chunks : List Bytes}
    (second : Writes op chunks) :
    Writes (fun f => if (FastGraph.fwrite f data).2 then op (FastGraph.fwrite f data).1
      else (FastGraph.fwrite f data).1) (data :: chunks) where
  stored f enough := by
    have first : Enough f.stores [data] :=
      (enough_append.mp (show Enough f.stores ([data] ++ chunks) from enough)).1
    rw [if_pos (snd_fwrite.mpr first)]
    exact ((fwrite data).comp second).stored f enough
  short f missing := by
    by_cases first : Enough f.stores [data]
    · rw [if_pos (snd_fwrite.mpr first)]
      exact ((fwrite data).comp second).short f missing
    · rw [if_neg fun all => first (snd_fwrite.mp all)]
      exact (fwrite data).short f first
  keeps f error := by
    have kept := (fwrite data).keeps f error
    split
    · exact second.keeps _ kept
    · exact kept

/-- A loop that writes in every iteration. -/
theorem foldl {α : Type} {op : OutFile → α → OutFile} {chunks : α → List Bytes}
    (each : ∀ x, Writes (fun f => op f x) (chunks x)) (l : List α) :
    Writes (fun f => l.foldl op f) (l.flatMap chunks) := by
  induction l with
  | nil => exact none
  | cons x l ih => exact (each x).comp ih

end Writes

end FastGraph
