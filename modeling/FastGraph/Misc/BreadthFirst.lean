import Mathlib.Data.List.Basic
import Mathlib.Data.List.Nodup

/-!
# Breadth-first search

The walks from a vertex, listed by length and then in the order of the lists of successors,
and the search for a target that expands every vertex once. The search meets the ends of the
walks up to the first that is the target, and no other vertex.
-/

namespace FastGraph.BreadthFirst
variable {V : Type}

/-- The ends of the walks of a length. -/
def layer (succ : V → List V) (s : V) : Nat → List V
  | 0 => [s]
  | k + 1 => (layer succ s k).flatMap succ

/-- The ends of the walks of the lengths from 1 to `k`. -/
def ends (succ : V → List V) (s : V) : Nat → List V
  | 0 => []
  | k + 1 => ends succ s k ++ layer succ s (k + 1)

/-- The walks by a queue without marks: the ends listed so far, and those not yet extended. -/
inductive Walks (succ : V → List V) (s : V) : List V → List V → Prop where
  | start : Walks succ s [] [s]
  | step {seen R : List V} {u : V} (walks : Walks succ s seen (u :: R)) :
      Walks succ s (seen ++ succ u) (R ++ succ u)

variable {succ : V → List V} {s t : V}

theorem Walks.skip {seen l R : List V} (walks : Walks succ s seen (l ++ R)) :
    Walks succ s (seen ++ l.flatMap succ) (R ++ l.flatMap succ) := by
  induction l generalizing seen R with
  | nil => simpa using walks
  | cons u l ih =>
    have next : Walks succ s (seen ++ succ u) (l ++ (R ++ succ u)) := by
      rw [← List.append_assoc]
      exact walks.step
    have last := ih next
    rw [List.flatMap_cons, ← List.append_assoc, ← List.append_assoc]
    exact last

theorem walks_ends (succ : V → List V) (s : V) (k : Nat) :
    Walks succ s (ends succ s k) (layer succ s k) := by
  induction k with
  | zero => exact .start
  | succ k ih =>
    rw [← List.append_nil (layer succ s k)] at ih
    exact ih.skip

/-- The listed ends are those of whole layers and of a part of the next one. -/
theorem Walks.split {seen R : List V} (walks : Walks succ s seen R) :
    ∃ k pre rest, layer succ s k = pre ++ rest ∧ seen = ends succ s k ++ pre.flatMap succ ∧
      R = rest ++ pre.flatMap succ := by
  induction walks with
  | start => exact ⟨0, [], [s], rfl, rfl, rfl⟩
  | @step seen R u walks ih =>
    obtain ⟨k, pre, rest, split, listed, pending⟩ := ih
    cases rest with
    | cons v rest =>
      rw [List.cons_append, List.cons.injEq] at pending
      obtain ⟨rfl, rfl⟩ := pending
      refine ⟨k, pre ++ [u], rest, by rw [split]; simp, ?_, ?_⟩
      · rw [listed, List.flatMap_append, List.flatMap_singleton, List.append_assoc]
      · rw [List.flatMap_append, List.flatMap_singleton, List.append_assoc]
    | nil =>
      rw [List.append_nil] at split
      have next : layer succ s (k + 1) = u :: R := by
        rw [layer, split, pending, List.nil_append]
      refine ⟨k + 1, [u], R, next, ?_, ?_⟩
      · rw [listed, ends, layer, split, List.flatMap_singleton]
      · rw [List.flatMap_singleton]

theorem Walks.listed {seen R : List V} (walks : Walks succ s seen R) :
    ∃ k, seen <+: ends succ s k := by
  obtain ⟨k, pre, rest, split, listed, -⟩ := walks.split
  refine ⟨k + 1, rest.flatMap succ, ?_⟩
  rw [listed, ends, layer, split, List.flatMap_append, List.append_assoc]

variable [DecidableEq V]

/-- A list up to the first occurrence of an element, which it includes. -/
def upTo (t : V) : List V → List V
  | [] => []
  | x :: xs => if x = t then [x] else x :: upTo t xs

theorem upTo_append_of_not_mem {xs : List V} (absent : t ∉ xs) (ys : List V) :
    upTo t (xs ++ ys) = xs ++ upTo t ys := by
  induction xs with
  | nil => rfl
  | cons x xs ih =>
    rw [List.mem_cons, not_or] at absent
    rw [List.cons_append, upTo, if_neg (Ne.symm absent.1), ih absent.2, List.cons_append]

theorem upTo_of_not_mem {xs : List V} (absent : t ∉ xs) : upTo t xs = xs := by
  have whole := upTo_append_of_not_mem absent []
  rw [List.append_nil, upTo, List.append_nil] at whole
  exact whole

theorem upTo_append_of_mem {xs : List V} (mem : t ∈ xs) (ys : List V) :
    upTo t (xs ++ ys) = upTo t xs := by
  induction xs with
  | nil => cases mem
  | cons x xs ih =>
    rw [List.cons_append, upTo, upTo]
    split
    · rfl
    · rename_i other
      rw [ih ((List.mem_cons.mp mem).resolve_left (Ne.symm other))]

/-- What holds of a list up to `t`, element by element. -/
theorem forall_upTo_cons {ok : V → Prop} {x : V} {xs : List V} :
    (∀ y ∈ upTo t (x :: xs), ok y) ↔ ok x ∧ (x ≠ t → ∀ y ∈ upTo t xs, ok y) := by
  rw [upTo]
  split
  · rename_i same
    simp [same]
  · rename_i other
    rw [List.forall_mem_cons]
    exact and_congr_right fun _ => ⟨fun all _ => all, fun all => all other⟩

theorem mem_of_mem_upTo {x : V} {xs : List V} (mem : x ∈ upTo t xs) : x ∈ xs := by
  induction xs with
  | nil => cases mem
  | cons y xs ih =>
    rw [upTo] at mem
    split at mem
    · rw [List.mem_singleton] at mem
      rw [mem]
      exact List.mem_cons_self
    · rcases List.mem_cons.mp mem with rfl | later
      · exact List.mem_cons_self
      · exact List.mem_cons_of_mem _ (ih later)

/-- A longer list is followed no less far. -/
theorem upTo_subset {xs ys : List V} (start : xs <+: ys) : upTo t xs ⊆ upTo t ys := by
  obtain ⟨rest, rfl⟩ := start
  intro x mem
  by_cases found : t ∈ xs
  · rw [upTo_append_of_mem found]
    exact mem
  · rw [upTo_append_of_not_mem found]
    exact List.mem_append_left _ (mem_of_mem_upTo mem)

/-- The elements of a list that are not known yet, each at its first occurrence. -/
def firsts (known : List V) : List V → List V
  | [] => []
  | x :: xs => if x ∈ known then firsts known xs else x :: firsts (known ++ [x]) xs

theorem mem_firsts {known xs : List V} {y : V} : y ∈ firsts known xs ↔ y ∉ known ∧ y ∈ xs := by
  induction xs generalizing known with
  | nil => simp [firsts]
  | cons x xs ih =>
    rw [firsts]
    split
    · rename_i old
      rw [ih, List.mem_cons]
      grind
    · rename_i new
      rw [List.mem_cons, ih, List.mem_append, List.mem_singleton, List.mem_cons]
      grind

theorem firsts_congr {known known' : List V} (same : ∀ y, y ∈ known ↔ y ∈ known')
    (xs : List V) : firsts known xs = firsts known' xs := by
  induction xs generalizing known known' with
  | nil => rfl
  | cons x xs ih =>
    have more : ∀ y, y ∈ known ++ [x] ↔ y ∈ known' ++ [x] := by
      intro y
      rw [List.mem_append, List.mem_append, same]
    rw [firsts, firsts, ih same, ih more]
    simp only [same]

theorem firsts_append (known xs ys : List V) :
    firsts known (xs ++ ys) = firsts known xs ++ firsts (known ++ xs) ys := by
  induction xs generalizing known with
  | nil => simp [firsts]
  | cons x xs ih =>
    rw [List.cons_append, firsts, firsts]
    split
    · rename_i old
      rw [ih]
      congr 1
      apply firsts_congr
      grind
    · rw [ih, List.cons_append]
      congr 2
      apply firsts_congr
      grind

theorem firsts_eq_nil {known xs : List V} (all : ∀ x ∈ xs, x ∈ known) : firsts known xs = [] := by
  rw [List.eq_nil_iff_forall_not_mem]
  intro y mem
  obtain ⟨new, listed⟩ := mem_firsts.mp mem
  exact new (all y listed)

theorem nodup_append_firsts {known : List V} (xs : List V) (distinct : known.Nodup) :
    (known ++ firsts known xs).Nodup := by
  induction xs generalizing known with
  | nil => simpa [firsts] using distinct
  | cons x xs ih =>
    rw [firsts]
    split
    · exact ih distinct
    · rename_i new
      have longer : (known ++ [x]).Nodup := by
        rw [List.nodup_append]
        refine ⟨distinct, List.nodup_singleton x, ?_⟩
        intro a mem b same
        rw [List.mem_singleton] at same
        rintro rfl
        exact new (same ▸ mem)
      have rest := ih longer
      rw [List.append_assoc] at rest
      exact rest

/-- Where the first new element of a list is. -/
theorem firsts_eq_cons {known xs ys : List V} {v : V} (first : firsts known xs = v :: ys) :
    ∃ dups rest, xs = dups ++ v :: rest ∧ (∀ d ∈ dups, d ∈ known) := by
  induction xs with
  | nil => cases first
  | cons x xs ih =>
    rw [firsts] at first
    split at first
    · rename_i old
      obtain ⟨dups, rest, split, among⟩ := ih first
      refine ⟨x :: dups, rest, by rw [split, List.cons_append], ?_⟩
      intro d mem
      rcases List.mem_cons.mp mem with rfl | later
      · exact old
      · exact among d later
    · cases first
      exact ⟨[], xs, rfl, by simp⟩

/-- The search for `t`: the vertices expanded so far and those in the queue. It ends when the
vertex to expand has `t` among its successors. -/
inductive Search (succ : V → List V) (s t : V) : List V → List V → Prop where
  | start : Search succ s t [] [s]
  | step {E P : List V} {v : V} (search : Search succ s t E (v :: P)) (missing : t ∉ succ v) :
      Search succ s t (E ++ [v]) (P ++ firsts (E ++ v :: P) (succ v))

variable {E P : List V} {v : V}

theorem Search.nodup (search : Search succ s t E P) : (E ++ P).Nodup := by
  induction search with
  | start => exact List.nodup_singleton s
  | @step E P v search missing ih =>
    have longer := nodup_append_firsts (succ v) ih
    simpa using longer

/-- The target is not among the known vertices. -/
theorem Search.missing (search : Search succ s t E P) (differ : s ≠ t) : t ∉ E ++ P := by
  induction search with
  | start => simpa using Ne.symm differ
  | @step E P v search missing ih =>
    have new : t ∉ firsts (E ++ v :: P) (succ v) := fun mem => missing (mem_firsts.mp mem).2
    grind

/-- An expanded vertex was the next one once. -/
theorem Search.expanded (search : Search succ s t E P) {u : V} (mem : u ∈ E) :
    ∃ E₀ P₀, Search succ s t E₀ (u :: P₀) ∧ t ∉ succ u := by
  induction search with
  | start => cases mem
  | step search missing ih =>
    rcases List.mem_append.mp mem with before | last
    · exact ih before
    · rw [List.mem_singleton] at last
      subst last
      exact ⟨_, _, search, missing⟩

/-- The successors of expanded vertices are known. -/
theorem Search.closed (search : Search succ s t E P) {u : V} (mem : u ∈ E) {y : V}
    (next : y ∈ succ u) : y ∈ E ++ P := by
  induction search with
  | start => cases mem
  | @step E P v search missing ih =>
    by_cases old : y ∈ E ++ v :: P
    · grind
    · have new : u ∈ E ∨ u = v := by simpa using mem
      rcases new with before | rfl
      · exact absurd (ih before) old
      · rw [List.append_assoc, List.mem_append, List.mem_append, List.mem_append]
        exact Or.inr (Or.inr (Or.inr (mem_firsts.mpr ⟨old, next⟩)))

/-- Expanding the first new element of the queue without marks. -/
theorem firsts_step {R : List V} (new : v ∉ E) (queue : v :: P = firsts E (v :: R)) :
    P ++ firsts (E ++ v :: P) (succ v) = firsts (E ++ [v]) (R ++ succ v) := by
  rw [firsts, if_neg new, List.cons.injEq] at queue
  rw [firsts_append, ← queue.2]
  congr 1
  apply firsts_congr
  intro y
  rw [queue.2, List.mem_append, List.mem_cons, mem_firsts]
  grind

/-- The queue of the search is what is new in the queue without marks. -/
theorem Walks.search {seen R : List V} (walks : Walks succ s seen R) (missing : t ∉ seen) :
    ∃ E, Search succ s t E (firsts E R) := by
  induction walks with
  | start => exact ⟨[], .start⟩
  | @step seen R u walks ih =>
    rw [List.mem_append, not_or] at missing
    obtain ⟨E, search⟩ := ih missing.1
    by_cases old : u ∈ E
    · refine ⟨E, ?_⟩
      rw [firsts, if_pos old] at search
      have nothing : firsts (E ++ R) (succ u) = [] := by
        apply firsts_eq_nil
        intro y next
        have known := search.closed old next
        rw [List.mem_append, mem_firsts] at known
        grind
      rw [firsts_append, nothing, List.append_nil]
      exact search
    · refine ⟨E ++ [u], ?_⟩
      have queue : firsts E (u :: R) = u :: firsts (E ++ [u]) R := by rw [firsts, if_neg old]
      rw [queue] at search
      rw [← firsts_step old queue.symm]
      exact search.step missing.2

/-- What is new in the queue without marks at one time is so at a time when it comes first. -/
theorem Walks.reach {seen R : List V} (walks : Walks succ s seen R) (missing : t ∉ seen)
    (search : Search succ s t E (v :: P)) (queue : v :: P = firsts E R) :
    ∃ seen' R', Walks succ s seen' (v :: R') ∧ t ∉ seen' ∧ v :: P = firsts E (v :: R') := by
  obtain ⟨dups, rest, split, among⟩ := firsts_eq_cons queue.symm
  rw [split] at walks
  refine ⟨_, rest ++ dups.flatMap succ, walks.skip, ?_, ?_⟩
  · intro found
    rcases List.mem_append.mp found with before | later
    · exact missing before
    · obtain ⟨d, mem, next⟩ := List.mem_flatMap.mp later
      obtain ⟨-, -, -, absent⟩ := search.expanded (among d mem)
      exact absent next
  · have skipped : firsts E dups = [] := firsts_eq_nil among
    have nothing : firsts (E ++ v :: rest) (dups.flatMap succ) = [] := by
      apply firsts_eq_nil
      intro y mem
      obtain ⟨d, inDups, next⟩ := List.mem_flatMap.mp mem
      have known := search.closed (among d inDups) next
      rw [queue, split, List.mem_append, mem_firsts] at known
      grind
    have same : firsts (E ++ dups) (v :: rest) = firsts E (v :: rest) := by
      apply firsts_congr
      grind
    rw [queue, split, firsts_append, skipped, List.nil_append, same, ← List.cons_append,
      firsts_append E (v :: rest), nothing, List.append_nil]

/-- Where the search is, the queue without marks can be. -/
theorem Search.walks (search : Search succ s t E P) :
    ∃ seen R, Walks succ s seen R ∧ t ∉ seen ∧ P = firsts E R := by
  induction search with
  | start => exact ⟨[], [s], .start, by simp, rfl⟩
  | @step E P v search missing ih =>
    obtain ⟨seen, R, walks, absent, queue⟩ := ih
    obtain ⟨seen', R', walks', absent', queue'⟩ := walks.reach absent search queue
    have new : v ∉ E := (mem_firsts.mp (queue' ▸ List.mem_cons_self)).1
    refine ⟨_, _, walks'.step, ?_, firsts_step new queue'⟩
    rw [List.mem_append, not_or]
    exact ⟨absent', missing⟩

/-- An end listed before or at the target is a successor of an end listed before the target. -/
theorem Walks.mem_upTo {seen R : List V} (walks : Walks succ s seen R) {x : V}
    (mem : x ∈ upTo t seen) : ∃ seen' u R', Walks succ s seen' (u :: R') ∧ t ∉ seen' ∧
      x ∈ upTo t (succ u) := by
  induction walks with
  | start => cases mem
  | @step seen R u walks ih =>
    by_cases found : t ∈ seen
    · rw [upTo_append_of_mem found] at mem
      exact ih mem
    · rw [upTo_append_of_not_mem found, List.mem_append] at mem
      rcases mem with before | here
      · rw [← upTo_of_not_mem found] at before
        exact ih before
      · exact ⟨seen, u, R, walks, found, here⟩

/-- The search meets what the walks end at, up to the target. -/
theorem met_iff (succ : V → List V) (s t : V) (ok : V → Prop) :
    (∀ E v P, Search succ s t E (v :: P) → ∀ x ∈ upTo t (succ v), ok x) ↔
      ∀ k, ∀ x ∈ upTo t (ends succ s k), ok x := by
  constructor
  · intro met k x mem
    obtain ⟨seen, u, R, walks, missing, here⟩ := (walks_ends succ s k).mem_upTo mem
    obtain ⟨E, search⟩ := walks.search missing
    by_cases old : u ∈ E
    · obtain ⟨E₀, P₀, search₀, -⟩ := search.expanded old
      exact met E₀ u P₀ search₀ x here
    · rw [firsts, if_neg old] at search
      exact met E u _ search x here
  · intro listed E v P search x mem
    obtain ⟨seen, R, walks, missing, queue⟩ := search.walks
    obtain ⟨seen', R', walks', missing', -⟩ := walks.reach missing search queue
    obtain ⟨k, start⟩ := walks'.step.listed
    apply listed k x
    apply upTo_subset start
    rw [upTo_append_of_not_mem missing']
    exact List.mem_append_right _ mem

/-! ### The path that is found -/

theorem Search.source_mem (search : Search succ s t E P) : s ∈ E ++ P := by
  induction search with
  | start => simp
  | step search missing ih =>
    rw [List.append_assoc, List.singleton_append]
    rcases List.mem_append.mp ih with before | here
    · exact List.mem_append_left _ before
    · rcases List.mem_cons.mp here with rfl | later <;> simp_all

/-- The search is in one state after each number of vertices. -/
theorem Search.linear {E' P' : List V} (search : Search succ s t E P)
    (search' : Search succ s t E' P') :
    (E.length = E'.length → E = E' ∧ P = P') ∧
      (E.length < E'.length → ∃ v P₀ rest, P = v :: P₀ ∧ t ∉ succ v ∧ E' = E ++ v :: rest) := by
  induction search' generalizing E P with
  | start =>
    refine ⟨?_, fun shorter => absurd shorter (Nat.not_lt_zero _)⟩
    intro empty
    cases search with
    | start => exact ⟨rfl, rfl⟩
    | step search missing => simp at empty
  | @step E' P' v search' missing ih =>
    constructor
    · intro same
      cases search with
      | start => simp at same
      | @step E P u search missing' =>
        obtain ⟨rfl, rest⟩ := (ih search).1 (by simpa using same)
        obtain ⟨rfl, rfl⟩ := List.cons.inj rest
        exact ⟨rfl, rfl⟩
    · intro shorter
      rw [List.length_append, List.length_singleton] at shorter
      rcases Nat.lt_succ_iff_lt_or_eq.mp shorter with before | last
      · obtain ⟨u, P₀, rest, queue, missing', split⟩ := (ih search).2 before
        exact ⟨u, P₀, rest ++ [v], queue, missing', by rw [split]; simp⟩
      · obtain ⟨rfl, rfl⟩ := (ih search).1 last
        exact ⟨v, P', [], rfl, missing, rfl⟩

/-- Expanding `u` meets `x` for the first time. -/
def Discovers (succ : V → List V) (s t u x : V) : Prop :=
  ∃ E P, Search succ s t E (u :: P) ∧ x ∈ succ u ∧ x ∉ E ++ u :: P

/-- A vertex is met for the first time once. -/
theorem Discovers.unique {u u' x : V} (one : Discovers succ s t u x)
    (two : Discovers succ s t u' x) : u = u' := by
  -- what an earlier vertex meets is known when a later one is expanded
  have ordered : ∀ {u u' x : V} {E P E' P' : List V}, Search succ s t E (u :: P) → x ∈ succ u →
      Search succ s t E' (u' :: P') → x ∉ E' ++ u' :: P' → ¬ E.length < E'.length := by
    intro u u' x E P E' P' search next search' new shorter
    obtain ⟨v, P₀, rest, queue, -, split⟩ := (search.linear search').2 shorter
    obtain ⟨rfl, rfl⟩ := List.cons.inj queue
    exact new (search'.closed (by rw [split]; simp) next)
  obtain ⟨E, P, search, next, new⟩ := one
  obtain ⟨E', P', search', next', new'⟩ := two
  rcases Nat.lt_trichotomy E.length E'.length with shorter | same | longer
  · exact absurd shorter (ordered search next search' new')
  · exact (List.cons.inj ((search.linear search').1 same).2).1
  · exact absurd longer (ordered search' next' search new)

theorem Discovers.ne_source {u x : V} (discovers : Discovers succ s t u x) : x ≠ s := by
  obtain ⟨E, P, search, -, new⟩ := discovers
  rintro rfl
  exact new search.source_mem

/-- The walk back from `x` to `s`, from each vertex to one that has met it. -/
inductive Back (met : V → V → Prop) (s : V) : V → List V → Prop where
  | source : Back met s s [s]
  | step {u x : V} {l : List V} (first : met u x) (back : Back met s u l) : Back met s x (x :: l)

omit [DecidableEq V] in
theorem Back.unique {met : V → V → Prop} (once : ∀ u u' x, met u x → met u' x → u = u')
    (root : ∀ u, ¬ met u s) {x : V} {l l' : List V} (back : Back met s x l)
    (back' : Back met s x l') : l = l' := by
  induction back generalizing l' with
  | source =>
    cases back' with
    | source => rfl
    | step first _ => exact absurd first (root _)
  | step first _ ih =>
    cases back' with
    | source => exact absurd first (root _)
    | step first' back' =>
      obtain rfl := once _ _ _ first first'
      rw [ih back']

/-- What the search for `t` returns: no path if everything was expanded, or the path to the target
in the order in which it was met. -/
inductive Finds (succ : V → List V) (s t : V) : List V → Prop where
  | nothing {E : List V} (search : Search succ s t E []) : Finds succ s t []
  | path {E P l : List V} {v : V} (search : Search succ s t E (v :: P)) (next : t ∈ succ v)
      (back : Back (Discovers succ s t) s t l) : Finds succ s t l.reverse

theorem Finds.unique {l l' : List V} (finds : Finds succ s t l) (finds' : Finds succ s t l') :
    l = l' := by
  have apart : ∀ {E E' P : List V} {v : V}, Search succ s t E [] → Search succ s t E' (v :: P) →
      t ∉ succ v := by
    intro E E' P v search search'
    rcases Nat.lt_trichotomy E.length E'.length with shorter | same | longer
    · obtain ⟨_, _, _, queue, -⟩ := (search.linear search').2 shorter
      cases queue
    · cases ((search.linear search').1 same).2
    · obtain ⟨_, _, _, queue, missing, -⟩ := (search'.linear search).2 longer
      obtain ⟨rfl, -⟩ := List.cons.inj queue
      exact missing
  cases finds with
  | nothing search =>
    cases finds' with
    | nothing _ => rfl
    | path search' next _ => exact absurd next (apart search search')
  | path search next back =>
    cases finds' with
    | nothing search' => exact absurd next (apart search' search)
    | path search' next' back' =>
      rw [back.unique (fun _ _ _ one two => one.unique two) (fun _ met => met.ne_source rfl) back']

end FastGraph.BreadthFirst
