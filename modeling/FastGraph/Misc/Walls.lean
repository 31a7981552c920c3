import FastGraph.Misc.Towers

/-!
# Searches past elements that compare with nothing

A list of elements of different heights, each of which has a place in an order or none. A search
for a place steps from one element to a later one over lower elements; what it steps on is below
the place. An element without a place is a wall to all later elements that are not higher. The
list need not be ascending, but whatever is out of order has a wall in between, and that is what
insertions and removals at the stops of searches preserve.
-/

namespace FastGraph

section
variable {α K : Type} (place : α → Option K) (height : α → Nat)

/-- The place of `x` satisfies `P`. -/
def Below (P : K → Prop) (x : α) : Prop := ∃ k, place x = some k ∧ P k

/-- A search for the end of `P` may stop behind `pre`: it was not kept from getting there, and it
does not get any further. -/
structure Stops (P : K → Prop) (pre post : List α) : Prop where
  leapt : ∀ front y back, pre = front ++ y :: back → ¬ Below place P y →
    ∃ x ∈ back, Below place P x ∧ height y < height x
  held : ∀ front x back, post = front ++ x :: back → Below place P x →
    ∃ y ∈ front, ¬ Below place P y ∧ height x ≤ height y

/-- `n` keeps a search for the end of `P` from stepping on what follows. -/
def Wall (P : K → Prop) (n : α) (behind : List α) : Prop :=
  place n = none ∧ ∀ w ∈ behind, Below place P w → height w ≤ height n

/-- There is a wall in the list to what follows it there. -/
def Walled (P : K → Prop) (xs : List α) : Prop :=
  ∃ a n c, xs = a ++ n :: c ∧ Wall place height P n c

/-- Where an element stands behind one that is not smaller, a wall stands in between. -/
def Guarded [LinearOrder K] (ts : List α) : Prop :=
  ∀ front u mid v back p q, ts = front ++ u :: (mid ++ v :: back) → place u = some p →
    place v = some q → q ≤ p → ∃ a n c, mid = a ++ n :: c ∧ Wall place height (· < p) n (c ++ [v])

end

section
variable {α K : Type} {place : α → Option K} {height : α → Nat} {P Q : K → Prop}
  {pre post front back ts : List α} {k p q : K} {n x y z : α}

/-! ### Stops -/

/-- Among the elements with a property one is the highest. -/
theorem exists_highest (height : α → Nat) {R : α → Prop} {xs : List α} (some : ∃ x ∈ xs, R x) :
    ∃ x ∈ xs, R x ∧ ∀ y ∈ xs, R y → height y ≤ height x := by
  induction xs with
  | nil => simp at some
  | cons x xs ih =>
    by_cases later : ∃ y ∈ xs, R y
    · obtain ⟨y, mem, holds, top⟩ := ih later
      by_cases first : R x ∧ height y < height x
      · refine ⟨x, by simp, first.1, ?_⟩
        intro z memZ holdsZ
        rcases List.mem_cons.mp memZ with rfl | memZ
        · exact le_rfl
        · exact (top z memZ holdsZ).trans first.2.le
      · refine ⟨y, by simp [mem], holds, ?_⟩
        intro z memZ holdsZ
        rcases List.mem_cons.mp memZ with rfl | memZ
        · exact not_lt.mp fun higher => first ⟨holdsZ, higher⟩
        · exact top z memZ holdsZ
    · obtain ⟨y, mem, holds⟩ := some
      rcases List.mem_cons.mp mem with rfl | mem
      · refine ⟨y, by simp, holds, ?_⟩
        intro z memZ holdsZ
        rcases List.mem_cons.mp memZ with rfl | memZ
        · exact le_rfl
        · exact absurd ⟨z, memZ, holdsZ⟩ later
      · exact absurd ⟨y, mem, holds⟩ later

theorem not_below_of_none (none : place n = none) : ¬ Below place P n := by
  rintro ⟨k, here, -⟩
  rw [none] at here
  cases here

theorem Below.mono (below : Below place P x) (le : ∀ k, P k → Q k) : Below place Q x := by
  obtain ⟨k, here, holds⟩ := below
  exact ⟨k, here, le k holds⟩

/-- The last element that was passed is below the place. -/
theorem Stops.last (stops : Stops place height P (front ++ [x]) post) : Below place P x := by
  by_contra above
  obtain ⟨y, mem, -⟩ := stops.leapt front x [] rfl above
  cases mem

/-- The first element that was not passed is not below the place. -/
theorem Stops.first (stops : Stops place height P pre (x :: back)) : ¬ Below place P x := by
  intro below
  obtain ⟨y, mem, -⟩ := stops.held [] x back rfl below
  cases mem

/-- Nothing that stands behind a wall and is not higher is in front of a stop. -/
theorem Stops.not_wall {a c : List α} (stops : Stops place height P pre post) (cut : pre = a ++ n :: c)
    (wall : Wall place height P n c) : False := by
  obtain ⟨w, mem, below, higher⟩ := stops.leapt a n c cut (not_below_of_none wall.1)
  have := wall.2 w mem below
  omega

/-- An element that has a place is no wall. -/
theorem Walled.erase {m : List α} (walled : Walled place height P (pre ++ z :: m))
    (placed : place z ≠ none) : Walled place height P (pre ++ m) := by
  obtain ⟨a, n, c, split, nowhere, wall⟩ := walled
  rcases split_append_cons split with ⟨c₁, rfl, rfl⟩ | ⟨rfl, rfl, rfl⟩ | ⟨a₂, rfl, rfl⟩
  · refine ⟨a, n, c₁ ++ m, by simp, nowhere, fun w mem => wall w ?_⟩
    simp only [List.mem_append, List.mem_cons] at mem ⊢
    tauto
  · exact absurd nowhere placed
  · exact ⟨pre ++ a₂, n, c, by simp, nowhere, wall⟩

/-- What a search collects is not walled off. -/
theorem Stops.not_walled {mid : List α} {R : K → Prop} (stops : Stops place height P pre post)
    (sub : ∀ r, P r → R r) (placed : ∀ y ∈ mid, place y ≠ none) :
    ¬ Walled place height R (pre ++ mid) := by
  rintro ⟨a, n, c, cut, nowhere, wall⟩
  rcases split_append cut with ⟨m, rfl, rfl⟩ | ⟨m, rfl, rfl⟩
  · exact stops.not_wall rfl ⟨nowhere, fun w mem below =>
      wall w (List.mem_append_left _ mem) (below.mono sub)⟩
  · exact placed n (by simp) nowhere

/-! ### Guarded lists -/

variable [LinearOrder K]

/-- A search passes nothing that is not smaller than all it steps on. -/
theorem Stops.not_mem (stops : Stops place height P pre post) (guarded : Guarded place height (pre ++ post))
    (mem : x ∈ pre) (here : place x = some p) (small : ∀ r, P r → r < p) : False := by
  obtain ⟨f, g, rfl⟩ := List.append_of_mem mem
  have above : ¬ Below place P x := by
    rintro ⟨r, same, holds⟩
    rw [here, Option.some.injEq] at same
    exact absurd (small r holds) (by rw [same]; exact lt_irrefl r)
  rcases List.eq_nil_or_concat g with rfl | ⟨mid, v, rfl⟩
  · exact above stops.last
  · rw [List.concat_eq_append] at stops guarded
    have last : Below place P v := by
      rw [← List.cons_append, ← List.append_assoc] at stops
      exact stops.last
    obtain ⟨q, hereV, holdsV⟩ := last
    obtain ⟨a, n, c, rfl, nowhere, wall⟩ := guarded f x mid v post p q (by simp) here hereV
      (small q holdsV).le
    obtain ⟨w, memW, belowW, higher⟩ := stops.leapt (f ++ x :: a) n (c ++ [v]) (by simp)
      (not_below_of_none nowhere)
    have := wall w memW (belowW.mono small)
    omega

theorem guarded_nil : Guarded place height ([] : List α) := by
  intro front u mid v back p q cut
  simp at cut

theorem Guarded.suffix (guarded : Guarded place height (pre ++ post)) : Guarded place height post := by
  intro front u mid v back p q cut
  exact guarded (pre ++ front) u mid v back p q (by rw [cut, List.append_assoc])

/-- An element without a place may stand in front. -/
theorem Guarded.cons (guarded : Guarded place height ts) (none : place n = none) :
    Guarded place height (n :: ts) := by
  intro front u mid v back p q cut here
  cases front with
  | nil =>
    obtain ⟨rfl, -⟩ := List.cons.inj cut
    rw [none] at here
    cases here
  | cons f front =>
    obtain ⟨-, rfl⟩ := List.cons.inj cut
    exact guarded front u mid v back p q rfl here

/-- A place is where a list without its last element is cut. -/
theorem split_last {mid a rest : List α} {v : α} (cut : mid ++ [v] = a ++ n :: rest)
    (some : rest ≠ []) : ∃ c, rest = c ++ [v] ∧ mid = a ++ n :: c := by
  rcases List.eq_nil_or_concat rest with rfl | ⟨c, last, rfl⟩
  · exact absurd rfl some
  · rw [List.concat_eq_append, ← List.cons_append, ← List.append_assoc] at cut
    obtain ⟨rfl, same⟩ := List.append_inj' cut rfl
    obtain rfl := (List.cons.inj same).1
    exact ⟨c, List.concat_eq_append, rfl⟩

/-- Between a new element and a later one that is not greater stands a wall. -/
theorem Stops.wall_behind {mid : List α} {v : α} (stops : Stops place height (· < k) pre (mid ++ v :: back))
    (guarded : Guarded place height (mid ++ v :: back))
    (fresh : ∀ x rest, mid ++ v :: back = x :: rest → place x ≠ some k) (hereV : place v = some q)
    (le : q ≤ k) : ∃ a n c, mid = a ++ n :: c ∧ Wall place height (· < k) n (c ++ [v]) := by
  by_cases lower : ∃ w ∈ mid ++ [v], Below place (· < k) w
  · -- the highest element below the new one stands behind a higher one
    obtain ⟨w, mem, ⟨r, hereW, small⟩, top⟩ := exists_highest height lower
    obtain ⟨f, g, cut⟩ := List.append_of_mem mem
    obtain ⟨y, memY, above, high⟩ := stops.held f w (g ++ back)
      (by rw [← List.singleton_append, ← List.append_assoc, cut]; simp) ⟨r, hereW, small⟩
    obtain ⟨f₁, f₂, rfl⟩ := List.append_of_mem memY
    cases hereY : place y with
    | none =>
      have cut' : mid ++ [v] = f₁ ++ y :: (f₂ ++ w :: g) := by
        rw [cut]
        simp
      obtain ⟨c, rest, rfl⟩ := split_last cut' (by simp)
      refine ⟨f₁, y, c, rfl, hereY, ?_⟩
      intro x memX belowX
      exact (top x (by simp only [List.append_assoc, List.cons_append, List.mem_append,
        List.mem_cons] at memX ⊢; tauto) belowX).trans high
    | some p =>
      have big : k ≤ p := not_lt.mp fun less => above ⟨p, hereY, less⟩
      obtain ⟨a, n, c, rfl, nowhere, wall⟩ := guarded f₁ y f₂ w (g ++ back) p r
        (by rw [← List.singleton_append, ← List.append_assoc, cut]; simp) hereY hereW
        (small.trans_le big).le
      have cut' : mid ++ [v] = f₁ ++ y :: a ++ n :: (c ++ w :: g) := by
        rw [cut]
        simp
      obtain ⟨c', rest, rfl⟩ := split_last cut' (by simp)
      refine ⟨_, n, c', rfl, nowhere, ?_⟩
      intro x memX belowX
      rw [← rest] at memX
      rcases List.mem_append.mp memX with inC | later
      · exact wall x (List.mem_append_left _ inC) (belowX.mono fun _ less => less.trans_le big)
      · have highW := wall w (by simp) ⟨r, hereW, small.trans_le big⟩
        refine (top x ?_ belowX).trans highW
        rw [cut]
        exact List.mem_append_right _ later
  · -- then the later one is equal to the new one
    have equal : q = k := by
      by_contra other
      exact lower ⟨v, by simp, q, hereV, lt_of_le_of_ne le other⟩
    have blank (n : α) (c : List α) (inside : ∀ x ∈ c, x ∈ mid) :
        ∀ w ∈ c ++ [v], Below place (· < k) w → height w ≤ height n := by
      intro w memW belowW
      refine absurd ⟨w, ?_, belowW⟩ lower
      rcases List.mem_append.mp memW with inC | last
      · exact List.mem_append_left _ (inside w inC)
      · exact List.mem_append_right _ last
    cases mid with
    | nil => exact absurd (equal ▸ hereV) (fresh v back rfl)
    | cons x mid =>
      cases hereX : place x with
      | none => exact ⟨[], x, mid, rfl, hereX, blank x mid fun y mem => List.mem_cons_of_mem x mem⟩
      | some p =>
        have big : k ≤ p := not_lt.mp fun less => stops.first ⟨p, hereX, less⟩
        obtain ⟨a, n, c, rfl, nowhere, -⟩ := guarded [] x mid v back p q rfl hereX hereV (le.trans big)
        exact ⟨x :: a, n, c, rfl, nowhere, blank n c fun y mem => by simp [mem]⟩

/-- Insertion at the stop of a search. -/
theorem Guarded.insert (guarded : Guarded place height (pre ++ post))
    (stops : Stops place height (· < k) pre post) (here : place z = some k)
    (fresh : ∀ x rest, post = x :: rest → place x ≠ some k) :
    Guarded place height (pre ++ z :: post) := by
  intro front u mid v back p q cut hereU hereV le
  rcases split_append_cons cut with ⟨m, rfl, rest⟩ | ⟨rfl, rfl, rfl⟩ | ⟨m, rfl, rfl⟩
  · -- the first of the two stands in front of the new one
    rcases split_append_cons rest.symm with ⟨m₂, rfl, rfl⟩ | ⟨rfl, rfl, rfl⟩ | ⟨m₂, rfl, rfl⟩
    · exact guarded front u mid v (m₂ ++ post) p q (by simp) hereU hereV le
    · rw [here, Option.some.injEq] at hereV
      subst hereV
      exact (stops.not_mem guarded (by simp) hereU fun r small => small.trans_le le).elim
    · obtain ⟨a, n, c, split, nowhere, wall⟩ := guarded front u (m ++ m₂) v back p q (by simp) hereU
        hereV le
      rcases split_append split with ⟨c₁, rfl, rfl⟩ | ⟨a₂, rfl, rfl⟩
      · refine ⟨a, n, c₁ ++ z :: m₂, by simp, nowhere, ?_⟩
        intro w mem below
        by_cases new : w = z
        · -- a new element below `p` was reached over a higher one
          subst new
          by_contra high
          obtain ⟨r, same, small⟩ := below
          rw [here, Option.some.injEq] at same
          subst same
          obtain ⟨y, memY, belowY, higher⟩ := stops.leapt (front ++ u :: a) n c₁ (by simp)
            (not_below_of_none nowhere)
          have := wall y (by simp [memY]) (belowY.mono fun _ less => less.trans small)
          omega
        · exact wall w (by
            simp only [List.append_assoc, List.cons_append, List.mem_append, List.mem_cons] at mem ⊢
            tauto) below
      · exact ⟨m ++ z :: a₂, n, c, by simp, nowhere, wall⟩
  · -- the first of the two is the new one
    rw [here, Option.some.injEq] at hereU
    subst hereU
    exact stops.wall_behind guarded.suffix fresh hereV le
  · exact guarded (pre ++ m) u mid v back p q (by simp) hereU hereV le

/-- Removal of an element that has a place. -/
theorem Guarded.erase (guarded : Guarded place height (pre ++ z :: post)) (here : place z ≠ none) :
    Guarded place height (pre ++ post) := by
  intro front u mid v back p q cut hereU hereV le
  rcases split_append cut with ⟨m, rfl, rest⟩ | ⟨m, rfl, rfl⟩
  · rcases split_append rest.symm with ⟨m₂, rfl, rfl⟩ | ⟨m₂, rfl, rfl⟩
    · exact guarded front u mid v (m₂ ++ z :: post) p q (by simp) hereU hereV le
    · obtain ⟨a, n, c, split, nowhere, wall⟩ := guarded front u (m ++ z :: m₂) v back p q (by simp)
        hereU hereV le
      rcases split_append_cons split with ⟨c₁, rfl, rfl⟩ | ⟨rfl, rfl, rfl⟩ | ⟨a₂, rfl, rfl⟩
      · refine ⟨a, n, c₁ ++ m₂, by simp, nowhere, fun w mem => wall w ?_⟩
        simp only [List.append_assoc, List.cons_append, List.mem_append, List.mem_cons] at mem ⊢
        tauto
      · exact absurd nowhere here
      · exact ⟨m ++ a₂, n, c, by simp, nowhere, wall⟩
  · exact guarded (pre ++ z :: m) u mid v back p q (by simp) hereU hereV le

/-! ### What a search can find -/

/-- A search that finds only elements with places behind its stop finds none below it. -/
theorem Stops.not_below {mid : List α} (stops : Stops place height P pre (mid ++ x :: back))
    (guarded : Guarded place height (mid ++ x :: back)) (here : place x = some k)
    (down : ∀ a b, a ≤ b → P b → P a) (placed : ∀ y ∈ mid, place y ≠ none) : ¬ P k := by
  intro holds
  obtain ⟨y, mem, above, -⟩ := stops.held mid x back rfl ⟨k, here, holds⟩
  obtain ⟨f, g, rfl⟩ := List.append_of_mem mem
  obtain ⟨p, hereY⟩ := Option.ne_none_iff_exists'.mp (placed y mem)
  have le : k ≤ p := (not_le.mp fun less => above ⟨p, hereY, down p k less holds⟩).le
  obtain ⟨a, n, c, rfl, nowhere, -⟩ := guarded f y g x back p k (by simp) hereY here le
  exact placed n (by simp) nowhere

/-- What stands behind a stop is found, or walled off by what stands in between. -/
theorem Stops.walled {mid : List α} {R : K → Prop} (stops : Stops place height P pre (mid ++ x :: back))
    (guarded : Guarded place height (pre ++ (mid ++ x :: back))) (here : place x = some k)
    (down : ∀ a b, a ≤ b → P b → P a) (sub : ∀ r, R r → P r)
    (blocked : ∃ y ∈ mid, ∀ p, place y = some p → k ≤ p) : Walled place height R (pre ++ mid) := by
  by_cases lower : ∃ w ∈ mid, Below place P w
  · obtain ⟨w, mem, ⟨r, hereW, holds⟩, top⟩ := exists_highest height lower
    obtain ⟨f, g, rfl⟩ := List.append_of_mem mem
    obtain ⟨y, memY, above, high⟩ := stops.held f w (g ++ x :: back) (by simp) ⟨r, hereW, holds⟩
    obtain ⟨f₁, f₂, rfl⟩ := List.append_of_mem memY
    have lowR (v : α) (memV : v ∈ w :: g) (below : Below place R v) : height v ≤ height w :=
      top v (List.mem_append_right _ memV) (below.mono sub)
    cases hereY : place y with
    | none =>
      refine ⟨pre ++ f₁, y, f₂ ++ w :: g, by simp, hereY, ?_⟩
      intro v memV below
      exact (top v (by simp only [List.append_assoc, List.cons_append, List.mem_append,
        List.mem_cons] at memV ⊢; tauto) (below.mono sub)).trans high
    | some p =>
      have less (r' : K) (holds' : P r') : r' < p :=
        not_le.mp fun le => above ⟨p, hereY, down p r' le holds'⟩
      obtain ⟨a, n, c, rfl, nowhere, wall⟩ := guarded (pre ++ f₁) y f₂ w (g ++ x :: back) p r
        (by simp) hereY hereW (less r holds).le
      refine ⟨pre ++ f₁ ++ y :: a, n, c ++ w :: g, by simp, nowhere, ?_⟩
      intro v memV below
      rcases List.mem_append.mp memV with inC | later
      · exact wall v (List.mem_append_left _ inC) (below.mono fun r' holds' => less r' (sub r' holds'))
      · exact (lowR v later below).trans (wall w (by simp) ⟨r, hereW, less r holds⟩)
  · obtain ⟨y, mem, big⟩ := blocked
    obtain ⟨f, g, rfl⟩ := List.append_of_mem mem
    have blank (n : α) (c : List α) (inside : ∀ v ∈ c, v ∈ g) :
        ∀ w ∈ c, Below place R w → height w ≤ height n := fun w memW below =>
      absurd ⟨w, by simp [inside w memW], below.mono sub⟩ lower
    cases hereY : place y with
    | none => exact ⟨pre ++ f, y, g, by simp, hereY, blank y g fun v mem => mem⟩
    | some p =>
      obtain ⟨a, n, c, rfl, nowhere, -⟩ := guarded (pre ++ f) y g x back p k (by simp) hereY here
        (big p hereY)
      exact ⟨pre ++ f ++ y :: a, n, c, by simp, nowhere, blank n c fun v mem => by simp [mem]⟩

/-- A search for the place of an element that is not walled off stops in front of it. -/
theorem Stops.in_front {R : K → Prop} {rest : List α} (stops : Stops place height (· < k) pre post)
    (guarded : Guarded place height (pre ++ post)) (cut : pre ++ post = front ++ x :: rest)
    (here : place x = some k) (sub : ∀ r, R r → r < k) (clear : ¬ Walled place height R front) :
    front = pre ∧ post = x :: rest := by
  rcases split_append cut with ⟨m, rfl, rfl⟩ | ⟨m, rfl, rfl⟩
  · exact (stops.not_mem guarded (by simp) here fun r small => small).elim
  · cases m with
    | nil => exact ⟨List.append_nil pre, rfl⟩
    | cons y m =>
      refine absurd (stops.walled guarded here (fun a b le less => le.trans_lt less) sub ?_) clear
      exact ⟨y, by simp, fun p hereY => not_lt.mp fun less => stops.first ⟨p, hereY, less⟩⟩

/-! ### Exposed places -/

variable {E : Type} [LinearOrder E]

/-- An element at the place is not walled off from searches that look at the score only. -/
def Exposed (place : α → Option K) (height : α → Nat) (score : K → E) (ts : List α) (k : K) : Prop :=
  ∃ front x rest, ts = front ++ x :: rest ∧ place x = some k ∧
    ¬ Walled place height (fun r => score r < score k) front

variable {score : K → E} {j : K}

omit [LinearOrder K] in
theorem Exposed.of_cons (none : place n = none) (exposed : Exposed place height score (n :: ts) k) :
    Exposed place height score ts k := by
  obtain ⟨front, x, rest, cut, here, clear⟩ := exposed
  cases front with
  | nil =>
    obtain ⟨rfl, -⟩ := List.cons.inj cut
    rw [none] at here
    cases here
  | cons f front =>
    obtain ⟨rfl, rfl⟩ := List.cons.inj cut
    refine ⟨front, x, rest, rfl, here, ?_⟩
    rintro ⟨a, w, c, rfl, wall⟩
    exact clear ⟨n :: a, w, c, rfl, wall⟩

omit [LinearOrder K] in
theorem Exposed.of_erase (placed : place z ≠ none)
    (exposed : Exposed place height score (pre ++ post) k) :
    Exposed place height score (pre ++ z :: post) k := by
  obtain ⟨front, x, rest, cut, here, clear⟩ := exposed
  rcases split_append cut with ⟨m, rfl, rfl⟩ | ⟨m, rfl, rfl⟩
  · exact ⟨front, x, m ++ z :: post, by simp, here, clear⟩
  · exact ⟨pre ++ z :: m, x, rest, by simp, here, fun walled => clear (walled.erase placed)⟩

/-- An insertion exposes nothing but the new element. -/
theorem Exposed.of_insert (mono : ∀ a b, a ≤ b → score a ≤ score b)
    (stops : Stops place height (· < k) pre post) (here : place z = some k)
    (exposed : Exposed place height score (pre ++ z :: post) j) :
    j = k ∨ Exposed place height score (pre ++ post) j := by
  obtain ⟨front, x, rest, cut, hereX, clear⟩ := exposed
  rcases split_append_cons cut with ⟨m, rfl, rfl⟩ | ⟨rfl, rfl, rfl⟩ | ⟨m, rfl, rfl⟩
  · exact Or.inr ⟨front, x, m ++ post, by simp, hereX, clear⟩
  · exact Or.inl (Option.some.inj (hereX.symm.trans here))
  · refine Or.inr ⟨pre ++ m, x, rest, by simp, hereX, ?_⟩
    rintro ⟨a, n, c, split, nowhere, wall⟩
    rcases split_append split with ⟨c₁, rfl, rfl⟩ | ⟨a₂, rfl, rfl⟩
    · refine clear ⟨a, n, c₁ ++ z :: m, by simp, nowhere, ?_⟩
      intro w mem below
      by_cases new : w = z
      · subst new
        by_contra high
        obtain ⟨r, same, small⟩ := below
        obtain rfl := Option.some.inj (here.symm.trans same)
        obtain ⟨y, memY, belowY, higher⟩ := stops.leapt a n c₁ rfl (not_below_of_none nowhere)
        have := wall y (List.mem_append_left _ memY)
          (belowY.mono fun r less => (mono _ _ less.le).trans_lt small)
        omega
      · exact wall w (by
          simp only [List.mem_append, List.mem_cons] at mem ⊢
          tauto) below
    · exact clear ⟨pre ++ z :: a₂, n, c, by simp, nowhere, wall⟩

/-- No element at the place is left exposed when the one at the stop is removed. -/
theorem Stops.not_exposed_erase (mono : ∀ a b, a ≤ b → score a ≤ score b)
    (stops : Stops place height (· < k) pre (z :: post))
    (guarded : Guarded place height (pre ++ z :: post)) (here : place z = some k) :
    ¬ Exposed place height score (pre ++ post) k := by
  rintro ⟨front, x, rest, cut, hereX, clear⟩
  have low (r : K) (less : score r < score k) : r < k :=
    not_le.mp fun le => absurd (mono _ _ le) (not_le.mpr less)
  have placed : place z ≠ none := by
    rw [here]
    exact Option.some_ne_none k
  rcases split_append cut with ⟨m, rfl, rfl⟩ | ⟨m, rfl, rfl⟩
  · have cut' : front ++ x :: m ++ z :: post = front ++ x :: (m ++ z :: post) := by simp
    have same := (stops.in_front guarded cut' hereX low clear).1
    simpa using congrArg List.length same
  · have cut' : pre ++ z :: (m ++ x :: rest) = pre ++ z :: m ++ x :: rest := by simp
    have same := (stops.in_front guarded cut' hereX low fun walled => clear (walled.erase placed)).1
    simpa using congrArg List.length same

/-- No element at a place is exposed that the search for it does not find. -/
theorem Stops.not_exposed (mono : ∀ a b, a ≤ b → score a ≤ score b)
    (stops : Stops place height (· < k) pre post) (guarded : Guarded place height (pre ++ post))
    (absent : ∀ x rest, post = x :: rest → place x ≠ some k) :
    ¬ Exposed place height score (pre ++ post) k := by
  rintro ⟨front, x, rest, cut, here, clear⟩
  have low (r : K) (less : score r < score k) : r < k :=
    not_le.mp fun le => absurd (mono _ _ le) (not_le.mpr less)
  obtain ⟨-, first⟩ := stops.in_front guarded cut here low clear
  exact absent x rest first here

/-- An element that a search for its place stops at is exposed, whatever the score. -/
theorem Stops.exposed {rest : List α} (stops : Stops place height (· < k) pre (x :: rest))
    (here : place x = some k) : Exposed place height id (pre ++ x :: rest) k := by
  refine ⟨pre, x, rest, rfl, here, ?_⟩
  have clear : ¬ Walled place height (· < k) (pre ++ []) :=
    stops.not_walled (fun r less => less) (by simp)
  rwa [List.append_nil] at clear

/-- Two searches of a list for one place find the same. -/
theorem Stops.absent {pre' post' : List α} (stops : Stops place height (· < k) pre post)
    (guarded : Guarded place height (pre ++ post))
    (absent : ∀ x rest, post = x :: rest → place x ≠ some k) (cut : pre ++ post = pre' ++ post')
    (stops' : Stops place height (· < k) pre' post') :
    ∀ x rest, post' = x :: rest → place x ≠ some k := by
  rintro x rest rfl here
  have exposed := stops'.exposed here
  rw [← cut] at exposed
  exact stops.not_exposed (fun _ _ le => le) guarded absent exposed

/-- What one search for a place does not find, another does not find either after an element has
been removed. -/
theorem Stops.absent_erase {m₁ m₂ pre' post' : List α} (stops : Stops place height (· < k) pre post)
    (guarded : Guarded place height (pre ++ post))
    (absent : ∀ x rest, post = x :: rest → place x ≠ some k) (cut : pre ++ post = m₁ ++ z :: m₂)
    (placed : place z ≠ none) (cut' : m₁ ++ m₂ = pre' ++ post')
    (stops' : Stops place height (· < k) pre' post') :
    ∀ x rest, post' = x :: rest → place x ≠ some k := by
  rintro x rest rfl here
  have exposed := stops'.exposed here
  rw [← cut'] at exposed
  have exposed' := exposed.of_erase placed
  rw [← cut] at exposed'
  exact stops.not_exposed (fun _ _ le => le) guarded absent exposed'

end

end FastGraph
