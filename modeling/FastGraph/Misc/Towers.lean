import FastGraph.Misc.Bytes

/-!
# Lists of towers

A skip list is a list of towers in which every tower is in the chains of some levels. A
store is laid out as a list of towers if at every level a tower shows on, its pointer is
the address of the next tower that shows there. A change of one pointer makes one tower
appear on, or disappear from, the chain of one level; whole insertions and removals are
made of such changes.
-/

namespace FastGraph

section
variable {β : Type} {t u : β} {xs ys front back : List β}

/-- Where an element of a list stands that is put together from two lists. -/
theorem split_append (cut : xs ++ ys = front ++ t :: back) :
    (∃ mid, xs = front ++ t :: mid ∧ back = mid ++ ys) ∨
      ∃ mid, front = xs ++ mid ∧ ys = mid ++ t :: back := by
  rcases List.append_eq_append_iff.mp cut with ⟨mid, front', ys'⟩ | ⟨mid, xs', rest⟩
  · exact Or.inr ⟨mid, front', ys'⟩
  · cases mid with
    | nil => exact Or.inr ⟨[], by simpa using xs'.symm, by simpa using rest.symm⟩
    | cons m mid =>
      rw [List.cons_append, List.cons.injEq] at rest
      exact Or.inl ⟨mid, by rw [xs', rest.1], rest.2⟩

/-- The same with one element between the two lists. -/
theorem split_append_cons (cut : xs ++ u :: ys = front ++ t :: back) :
    (∃ mid, xs = front ++ t :: mid ∧ back = mid ++ u :: ys) ∨ (front = xs ∧ t = u ∧ back = ys) ∨
      ∃ mid, front = xs ++ u :: mid ∧ ys = mid ++ t :: back := by
  rcases split_append cut with inFront | ⟨mid, front', rest⟩
  · exact Or.inl inFront
  · cases mid with
    | nil =>
      rw [List.nil_append, List.cons.injEq] at rest
      exact Or.inr (Or.inl ⟨by rw [front', List.append_nil], rest.1.symm, rest.2.symm⟩)
    | cons m mid =>
      rw [List.cons_append, List.cons.injEq] at rest
      exact Or.inr (Or.inr ⟨mid, by rw [front', rest.1], rest.2⟩)

end

/-- A tower: its address, what it holds, how many pointers it has, and the levels whose
chains it is in. -/
structure Tower (α : Type) where
  addr : Nat
  item : α
  height : Nat
  shows : Nat → Bool

namespace Tower
variable {α : Type}

/-- A tower in the chains of all its levels. -/
def full (addr : Nat) (item : α) (height : Nat) : Tower α := ⟨addr, item, height, (· < height)⟩

/-- A tower of which the levels from `lo` up to `hi` show. -/
def window (t : Tower α) (lo hi : Nat) : Tower α := { t with shows := fun i => lo ≤ i ∧ i < hi }

/-- The address of the next tower of the chain of level `i`. -/
def nextAt (i : Nat) (ts : List (Tower α)) : Option Nat := (ts.find? (·.shows i)).map addr

/-- The last tower of the chain of level `i`, from `h` on. -/
def lastAt (i : Nat) (h : Tower α) (ts : List (Tower α)) : Tower α :=
  ts.foldl (fun c t => if t.shows i then t else c) h

/-- No tower of the list is in the chain of level `i`. -/
def HiddenAt (i : Nat) (ts : List (Tower α)) : Prop := ∀ t ∈ ts, t.shows i = false

section
variable {i k : Nat} {h t u : Tower α} {xs ys front back : List (Tower α)}

/-! ### Chains -/

theorem nextAt_append (i : Nat) (xs ys : List (Tower α)) :
    nextAt i (xs ++ ys) = (nextAt i xs).or (nextAt i ys) := by
  unfold nextAt
  rw [List.find?_append]
  cases xs.find? (·.shows i) <;> rfl

theorem nextAt_cons (i : Nat) (t : Tower α) (ts : List (Tower α)) :
    nextAt i (t :: ts) = if t.shows i then some t.addr else nextAt i ts := by
  unfold nextAt
  rw [List.find?_cons]
  cases t.shows i <;> rfl

theorem nextAt_eq_none_iff : nextAt i xs = none ↔ HiddenAt i xs := by
  simp [nextAt, HiddenAt]

theorem HiddenAt.nextAt_append (hidden : HiddenAt i xs) (ys : List (Tower α)) :
    nextAt i (xs ++ ys) = nextAt i ys := by
  rw [Tower.nextAt_append, nextAt_eq_none_iff.mpr hidden, Option.none_or]

/-- The first tower that shows, and what stands before and after it. -/
theorem nextAt_eq_some {a : Nat} (next : nextAt i xs = some a) :
    ∃ front t back, xs = front ++ t :: back ∧ t.addr = a ∧ t.shows i = true ∧ HiddenAt i front := by
  induction xs with
  | nil => cases next
  | cons x xs ih =>
    rw [nextAt_cons] at next
    cases shown : x.shows i with
    | true =>
      rw [shown, if_pos rfl] at next
      exact ⟨[], x, xs, rfl, Option.some.inj next, shown, by simp [HiddenAt]⟩
    | false =>
      rw [shown, if_neg (by simp)] at next
      obtain ⟨front, t, back, rfl, here, shown', hidden⟩ := ih next
      refine ⟨x :: front, t, back, rfl, here, shown', ?_⟩
      intro y mem
      cases mem with
      | head => exact shown
      | tail _ later => exact hidden y later

theorem lastAt_append (i : Nat) (h : Tower α) (xs ys : List (Tower α)) :
    lastAt i h (xs ++ ys) = lastAt i (lastAt i h xs) ys := List.foldl_append

theorem lastAt_cons (i : Nat) (h t : Tower α) (ts : List (Tower α)) :
    lastAt i h (t :: ts) = lastAt i (if t.shows i then t else h) ts := rfl

theorem lastAt_of_hidden (hidden : HiddenAt i xs) : lastAt i h xs = h := by
  induction xs with
  | nil => rfl
  | cons x xs ih =>
    rw [lastAt_cons, hidden x (by simp), if_neg (by simp)]
    exact ih fun t mem => hidden t (by simp [mem])

/-- The last tower of a chain, and what stands before and after it. -/
theorem lastAt_split (i : Nat) (h : Tower α) (xs : List (Tower α)) :
    ∃ front back, h :: xs = front ++ lastAt i h xs :: back ∧ HiddenAt i back := by
  induction xs using List.reverseRecOn with
  | nil => exact ⟨[], [], rfl, by simp [HiddenAt]⟩
  | append_singleton xs x ih =>
    obtain ⟨front, back, cut, hidden⟩ := ih
    rw [lastAt_append, lastAt_cons]
    cases shown : x.shows i with
    | true => exact ⟨h :: xs, [], by simp [lastAt], by simp [HiddenAt]⟩
    | false =>
      refine ⟨front, back ++ [x], ?_, ?_⟩
      · rw [← List.cons_append, cut]
        simp [lastAt]
      · intro t mem
        rcases List.mem_append.mp mem with before | after
        · exact hidden t before
        · rw [List.mem_singleton.mp after, shown]

theorem shows_lastAt (base : h.shows i = true) : (lastAt i h xs).shows i = true := by
  induction xs using List.reverseRecOn with
  | nil => exact base
  | append_singleton xs x ih =>
    rw [lastAt_append, lastAt_cons]
    cases shown : x.shows i with
    | true => simpa [lastAt] using shown
    | false => simpa [lastAt] using ih

/-- A tower that shows and has no tower that shows behind it is the last one. -/
theorem lastAt_of_split (cut : h :: xs = front ++ t :: back) (shown : t.shows i = true)
    (hidden : HiddenAt i back) : lastAt i h xs = t := by
  cases front with
  | nil =>
    obtain ⟨rfl, rfl⟩ := List.cons.inj cut
    exact lastAt_of_hidden hidden
  | cons f front =>
    rw [List.cons_append, List.cons.injEq] at cut
    rw [cut.2, lastAt_append, lastAt_cons, shown, if_pos rfl, lastAt_of_hidden hidden]

/-- Where a tower stands is determined by its address. -/
theorem split_unique {front' back' : List (Tower α)} (distinct : (xs.map addr).Nodup)
    (cut : xs = front ++ t :: back) (cut' : xs = front' ++ u :: back') (same : t.addr = u.addr) :
    t = u ∧ back = back' := by
  induction front generalizing xs front' with
  | nil =>
    subst cut
    cases front' with
    | nil =>
      obtain ⟨rfl, rfl⟩ := List.cons.inj cut'
      exact ⟨rfl, rfl⟩
    | cons f front' =>
      obtain ⟨rfl, rfl⟩ := List.cons.inj cut'
      rw [List.nil_append, List.map_cons, List.nodup_cons] at distinct
      exact absurd (List.mem_map.mpr ⟨u, by simp, same.symm⟩) distinct.1
  | cons f front ih =>
    subst cut
    rw [List.cons_append, List.map_cons, List.nodup_cons] at distinct
    cases front' with
    | nil =>
      obtain ⟨rfl, rfl⟩ := List.cons.inj cut'
      exact absurd (List.mem_map.mpr ⟨t, by simp, same⟩) distinct.1
    | cons f' front' =>
      obtain ⟨rfl, rest⟩ := List.cons.inj cut'
      exact ih distinct.2 rfl rest

end

/-! ### Stores -/

/-- A store of nodes: what is held at an address and its pointers. -/
abbrev Lookup (α : Type) := Nat → Option (α × List (Option Nat))

/-- The store holds the tower `t`, which is followed by the towers `back`. -/
def Record (lookup : Lookup α) (t : Tower α) (back : List (Tower α)) : Prop :=
  ∃ forward, lookup t.addr = some (t.item, forward) ∧ forward.length = t.height ∧
    ∀ i, t.shows i = true → forward[i]? = some (nextAt i back)

/-- The store is laid out as the list of towers. -/
def Laid (lookup : Lookup α) (ts : List (Tower α)) : Prop :=
  ∀ front t back, ts = front ++ t :: back → Record lookup t back

section
variable {lookup lookup' : Lookup α} {k : Nat} {h t n : Tower α}
  {xs ys front back : List (Tower α)}

theorem Record.congr (record : Record lookup t back) (same : lookup' t.addr = lookup t.addr) :
    Record lookup' t back := by
  unfold Record
  rw [same]
  exact record

theorem Laid.tail (laid : Laid lookup (t :: xs)) : Laid lookup xs := by
  intro front u back cut
  exact laid (t :: front) u back (by rw [cut, List.cons_append])

/-- What follows the shown levels of a tower is not changed by a hidden tower. -/
theorem nextAt_insert_hidden (front : List (Tower α)) (hidden : HiddenAt k [n]) :
    nextAt k (front ++ n :: back) = nextAt k (front ++ back) := by
  rw [nextAt_append, nextAt_append, nextAt_cons, hidden n (by simp), if_neg (by simp)]

/-- A tower that shows nowhere may be put into the list. -/
theorem Laid.insert_hidden (laid : Laid lookup (xs ++ ys)) (hidden : ∀ i, n.shows i = false)
    (stored : ∃ forward, lookup n.addr = some (n.item, forward) ∧ forward.length = n.height) :
    Laid lookup (xs ++ n :: ys) := by
  intro front t back cut
  rcases split_append_cons cut with ⟨mid, rfl, rfl⟩ | ⟨-, rfl, -⟩ | ⟨mid, rfl, rfl⟩
  · obtain ⟨forward, here, length, links⟩ := laid front t (mid ++ ys) (by simp)
    refine ⟨forward, here, length, ?_⟩
    intro i shown
    rw [links i shown, nextAt_insert_hidden mid fun m mem => by
      rw [List.mem_singleton.mp mem, hidden]]
  · obtain ⟨forward, here, length⟩ := stored
    exact ⟨forward, here, length, fun i shown => by rw [hidden i] at shown; cases shown⟩
  · exact laid (xs ++ mid) t back (by simp)

/-- A tower that shows nowhere may be left out. -/
theorem Laid.drop_hidden (laid : Laid lookup (xs ++ n :: ys)) (hidden : ∀ i, n.shows i = false) :
    Laid lookup (xs ++ ys) := by
  intro front t back cut
  rcases split_append cut with ⟨mid, rfl, rfl⟩ | ⟨mid, rfl, rfl⟩
  · obtain ⟨forward, here, length, links⟩ := laid front t (mid ++ n :: ys) (by simp)
    refine ⟨forward, here, length, ?_⟩
    intro i shown
    rw [links i shown, nextAt_insert_hidden mid fun m mem => by
      rw [List.mem_singleton.mp mem, hidden]]
  · exact laid (xs ++ n :: mid) t back (by simp)

/-- The store may change where the list has no tower. -/
theorem Laid.congr (laid : Laid lookup xs) (same : ∀ t ∈ xs, lookup' t.addr = lookup t.addr) :
    Laid lookup' xs := by
  intro front t back cut
  exact (laid front t back cut).congr (same t (by simp [cut]))

/-- The pointers of a tower may change at the levels it does not show on. -/
theorem Laid.own {f f' : List (Option Nat)} (laid : Laid lookup (xs ++ n :: ys))
    (distinct : ((xs ++ n :: ys).map addr).Nodup) (here : lookup n.addr = some (n.item, f))
    (length : f'.length = f.length) (same : ∀ i, n.shows i = true → f'[i]? = f[i]?)
    (set : lookup' n.addr = some (n.item, f')) (frame : ∀ a, a ≠ n.addr → lookup' a = lookup a) :
    Laid lookup' (xs ++ n :: ys) := by
  intro front t back cut
  by_cases self : t.addr = n.addr
  · obtain ⟨rfl, rfl⟩ := split_unique distinct cut rfl self
    obtain ⟨g, stored, size, links⟩ := laid front t back cut
    rw [here] at stored
    obtain rfl : f = g := (Prod.ext_iff.mp (Option.some.inj stored)).2
    exact ⟨f', set, by rw [length, size], fun i shown => by rw [same i shown, links i shown]⟩
  · exact (laid front t back cut).congr (frame _ self)

/-- One pointer is set: the tower `n`, which may have appeared on or disappeared from the
chain of level `k`, becomes `n'`, and the last tower of that chain in front of it points to
what then comes next. -/
theorem Laid.relink {w : Tower α} {forward : List (Option Nat)}
    (laid : Laid lookup (h :: xs ++ n :: ys))
    (distinct : ((h :: xs).map addr).Nodup) (apart : ∀ t ∈ h :: xs, ∀ u ∈ n :: ys, t.addr ≠ u.addr)
    (addr : w.addr = n.addr) (item : w.item = n.item) (height : w.height = n.height)
    (others : ∀ i, i ≠ k → w.shows i = n.shows i) (base : h.shows k = true)
    (own : w.shows k = true → ∀ f, lookup n.addr = some (n.item, f) → f[k]? = some (nextAt k ys))
    (here : lookup (lastAt k h xs).addr = some ((lastAt k h xs).item, forward))
    (set : lookup' (lastAt k h xs).addr =
      some ((lastAt k h xs).item, forward.set k (nextAt k (w :: ys))))
    (frame : ∀ a, a ≠ (lastAt k h xs).addr → lookup' a = lookup a) :
    Laid lookup' (h :: xs ++ w :: ys) := by
  obtain ⟨front₀, back₀, cut₀, hidden₀⟩ := lastAt_split k h xs
  have lastMem : lastAt k h xs ∈ h :: xs := by simp [cut₀]
  have behind : ∀ u ∈ n :: ys, lookup' u.addr = lookup u.addr := by
    intro u mem
    exact frame _ (apart _ lastMem u mem).symm
  intro front t back cut
  rcases split_append_cons cut with ⟨mid, split, rfl⟩ | ⟨-, rfl, rfl⟩ | ⟨mid, rfl, rfl⟩
  · -- a tower in front: only the last one of level `k` sees the change
    obtain ⟨f, stored, length, links⟩ := laid front t (mid ++ n :: ys) (by
      rw [split, List.append_assoc, List.cons_append])
    have away : ∀ i, i ≠ k → nextAt i (mid ++ w :: ys) = nextAt i (mid ++ n :: ys) := by
      intro i level
      rw [nextAt_append, nextAt_append, nextAt_cons, nextAt_cons, others i level, addr]
    by_cases isLast : t.addr = (lastAt k h xs).addr
    · obtain ⟨same, rfl⟩ := split_unique distinct split cut₀ isLast
      rw [same, here] at stored
      obtain rfl : forward = f := (Prod.ext_iff.mp (Option.some.inj stored)).2
      refine ⟨_, by rw [same]; exact set, by rw [List.length_set, length], ?_⟩
      intro i shown
      by_cases level : i = k
      · subst level
        have inside : i < forward.length := by
          have some := links i shown
          by_contra out
          rw [List.getElem?_eq_none (not_lt.mp out)] at some
          cases some
        rw [hidden₀.nextAt_append, List.getElem?_set_self inside]
      · rw [List.getElem?_set_ne (Ne.symm level), links i shown, away i level]
    · refine ⟨f, by rw [frame _ isLast, stored], length, ?_⟩
      intro i shown
      by_cases level : i = k
      · subst level
        have seen : ¬ HiddenAt i mid := by
          intro hidden
          exact isLast (by rw [lastAt_of_split split shown hidden])
        rw [links i shown, nextAt_append, nextAt_append]
        cases next : nextAt i mid with
        | none => exact absurd (nextAt_eq_none_iff.mp next) seen
        | some a => rfl
      · rw [links i shown, away i level]
  · -- the tower that changes: only level `k` may be new
    obtain ⟨f, stored, length, links⟩ := laid (h :: xs) n _ rfl
    refine ⟨f, ?_, by rw [length, height], ?_⟩
    · rw [addr, item, behind n (by simp), stored]
    · intro i shown
      by_cases level : i = k
      · subst level
        exact own shown f stored
      · exact links i (by rwa [← others i level])
  · -- a tower behind
    apply (laid (h :: xs ++ n :: mid) t back (by simp)).congr
    exact behind t (by simp)

end

end Tower

end FastGraph
