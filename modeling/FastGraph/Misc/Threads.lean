import Mathlib.Data.List.Basic

/-!
# Threaded lists

A singly linked list in a memory: every address on it holds the address of the next one, and the
last holds none. The addresses and what else the memory holds are arbitrary; `next a` is the
link read at `a`, if there is one to read.
-/

namespace FastGraph

variable {A : Type}

/-- The addresses of `l`, from `head` on, are linked one to the next. -/
inductive Threaded (next : A → Option (Option A)) : Option A → List A → Prop where
  | nil : Threaded next none []
  | cons {a : A} {rest : Option A} {l : List A} (link : next a = some rest)
      (threaded : Threaded next rest l) : Threaded next (some a) (a :: l)

namespace Threaded

variable {next next' : A → Option (Option A)} {head rest : Option A} {a : A} {l l' : List A}

/-- Only what the addresses of the list hold matters. -/
theorem congr (threaded : Threaded next head l) (same : ∀ a ∈ l, next' a = next a) :
    Threaded next' head l := by
  induction threaded with
  | nil => exact nil
  | @cons a rest l link _ ih =>
    refine cons ((same a List.mem_cons_self).trans link) (ih ?_)
    intro b mem
    exact same b (List.mem_cons_of_mem _ mem)

theorem head_eq (threaded : Threaded next head l) : head = l.head? := by
  cases threaded <;> rfl

/-- There is one list from a given head on. -/
theorem unique (one : Threaded next head l) (two : Threaded next head l') : l = l' := by
  induction one generalizing l' with
  | nil =>
    cases two
    rfl
  | cons link _ ih =>
    cases two with
    | cons link' threaded =>
      obtain rfl := Option.some.inj (link.symm.trans link')
      rw [ih threaded]

/-- The head is read and the list goes on with what it holds. -/
theorem uncons (threaded : Threaded next (some a) l) :
    ∃ rest l', next a = some rest ∧ l = a :: l' ∧ Threaded next rest l' := by
  cases threaded with
  | @cons a rest l' link threaded => exact ⟨rest, l', link, rfl, threaded⟩

/-- A run of addresses, each linked to the one after it and the last to the head of a list, goes
in front of the list. -/
theorem splice (run : List A) (threaded : Threaded next rest l)
    (linked : ∀ i a, run[i]? = some a → next a = some (run[i + 1]?.or rest)) :
    Threaded next (run.head?.or rest) (run ++ l) := by
  induction run with
  | nil => exact threaded
  | cons a run ih =>
    have link := linked 0 a rfl
    rw [List.getElem?_cons_succ, ← List.head?_eq_getElem?] at link
    refine cons link (ih ?_)
    intro i b at_i
    exact linked (i + 1) b at_i

end Threaded

end FastGraph
