import FastGraph.Memory.Proofs.PoolAllocator
import FastGraph.Net.Connections

/-!
# No two connections share a Conn

Every entry of `conns_` points to a live slot of the pool, and the `Conn` in it carries the
descriptor of the entry. A `Conn` keeps its descriptor, so `close_conn` erases the one entry that
points to the slot it gives back.
-/

namespace FastGraph

namespace Server

variable {σ ε : Type} {dispatch : σ → List Bytes → Outcome ε (σ × Bytes)} {fuel : Nat}
  {c c₁ : Conn} {s s₁ : σ}

/-! ### The descriptor of a connection -/

theorem tryParseLoop_fd {res : ParseResult}
    (ran : tryParseLoop dispatch fuel c s = Outcome.returned (res, c₁, s₁)) : c₁.fd = c.fd := by
  induction fuel generalizing c s with
  | zero => simp [tryParseLoop] at ran
  | succ fuel ih =>
    unfold tryParseLoop at ran
    split at ran
    · cases ran
      rfl
    · cases ran
      rfl
    · obtain ⟨⟨s', reply⟩, -, later⟩ := Outcome.bind_eq_returned.mp ran
      have kept := ih later
      exact kept

theorem armWrite_fd (c : Conn) : (armWrite c).fd = c.fd := by
  unfold armWrite
  split <;> rfl

theorem onInput_fd {ev : IoEvent} {res : Option ParseResult}
    (ran : onInput dispatch fuel c ev s = Outcome.returned (res, c₁, s₁)) : c₁.fd = c.fd := by
  unfold onInput at ran
  split at ran
  · unfold doRead at ran
    split at ran
    · cases ran
      rfl
    · obtain ⟨⟨res', c', s'⟩, tried, same⟩ := Outcome.bind_eq_returned.mp ran
      cases same
      obtain ⟨⟨res', c', s'⟩, looped, same⟩ := Outcome.bind_eq_returned.mp tried
      cases same
      rw [armWrite_fd, tryParseLoop_fd looped]
  · cases ran
    rfl

theorem awaitInput_fd (c : Conn) : (awaitInput c).fd = c.fd := by
  unfold awaitInput
  split <;> rfl

theorem doWrite_fd (results : List WriteResult) (c : Conn) : (doWrite results c).fd = c.fd := by
  induction results generalizing c with
  | nil =>
    unfold doWrite
    split
    · rfl
    · exact awaitInput_fd c
  | cons result results ih =>
    unfold doWrite
    split
    · cases result with
      | sent extra =>
        dsimp only
        split <;> rw [ih]
      | again => rfl
      | failed => rfl
    · exact awaitInput_fd c

theorem onOutput_fd (c : Conn) (ev : IoEvent) : (onOutput c ev).fd = c.fd := by
  unfold onOutput
  split
  · exact doWrite_fd _ c
  · rfl

end Server

namespace PoolAllocator

variable {T : Type} {L : PoolLayout} {malloc : Nat → Option Nat} {p p' : PoolAllocator T}
  {live : List Nat} {ptr a : Nat} {x : T}

theorem read_write : (p.write ptr x).read a = if a = ptr then some x else p.read a := by
  unfold read write
  rw [UnorderedMap.find_set]
  by_cases here : a = ptr
  · rw [if_pos here, if_pos here]
  · rw [if_neg here, if_neg here]

theorem read_destroy (other : a ≠ ptr) : (p.destroy ptr).read a = p.read a := by
  unfold read destroy deallocate
  rw [UnorderedMap.find_set, if_neg other]

/-- `make` hands out a slot that was not live, with the object in it, and leaves the objects in
the live slots alone. -/
theorem Runs.make (fresh : Fresh L malloc) (runs : Runs L malloc p live)
    (step : p.make L malloc x = some (p', ptr)) :
    Runs L malloc p' (ptr :: live) ∧ p'.read ptr = some x ∧
      ∀ a ∈ live, p'.read a = p.read a := by
  unfold PoolAllocator.make at step
  obtain ⟨⟨q, slot⟩, allocated, same⟩ := Option.bind_eq_some_iff.mp step
  cases same
  obtain ⟨free, kept⟩ := runs.kept fresh
  obtain ⟨notLive, frame, -⟩ := kept.allocated fresh allocated
  refine ⟨(runs.allocated allocated).written List.mem_cons_self x, by rw [read_write, if_pos rfl],
    ?_⟩
  intro a mem
  have other : a ≠ ptr := fun same => notLive (same ▸ mem)
  rw [read_write, if_neg other]
  unfold read
  rw [frame a mem]

end PoolAllocator

namespace Connections

variable {σ ε : Type} {L : PoolLayout} {malloc : Nat → Option Nat} {m m' : Connections σ}
  {live : List Nat} {fd : Int} {c : Nat} {conn : Conn}
  {dispatch : σ → List Bytes → Outcome ε (σ × Bytes)} {fuel : Nat}

/-! ### The table -/

/-- Every entry of the table points to a live slot, which holds a `Conn` with the descriptor of
the entry. -/
structure Held (L : PoolLayout) (malloc : Nat → Option Nat) (m : Connections σ)
    (live : List Nat) : Prop where
  runs : PoolAllocator.Runs L malloc m.pool live
  holds : ∀ fd c, m.conns.find fd = some c →
    c ∈ live ∧ ∃ conn, m.pool.read c = some conn ∧ conn.fd = fd

theorem Held.unique (held : Held L malloc m live) {fd' : Int} (at_fd : m.conns.find fd = some c)
    (at_fd' : m.conns.find fd' = some c) : fd = fd' := by
  obtain ⟨-, conn, here, rfl⟩ := held.holds _ _ at_fd
  obtain ⟨-, conn', here', rfl⟩ := held.holds _ _ at_fd'
  rw [Option.some.inj (here.symm.trans here')]

theorem Held.accept (fresh : PoolAllocator.Fresh L malloc) (held : Held L malloc m live)
    (ran : accept L malloc m fd = (Outcome.returned m' : Outcome ε _)) :
    ∃ live', Held L malloc m' live' := by
  obtain ⟨⟨pool, c⟩, made, same⟩ := Outcome.bind_eq_returned.mp ran
  cases same
  obtain ⟨runs, here, others⟩ := held.runs.make fresh (Outcome.ofOption_eq_returned.mp made)
  refine ⟨c :: live, runs, ?_⟩
  intro fd' c' at_fd'
  rw [UnorderedMap.find_set] at at_fd'
  split at at_fd'
  · rename_i same
    cases at_fd'
    exact ⟨List.mem_cons_self, _, here, same.symm⟩
  · obtain ⟨mem, conn, there, descriptor⟩ := held.holds fd' c' at_fd'
    exact ⟨List.mem_cons_of_mem _ mem, conn, by rw [others c' mem, there], descriptor⟩

theorem Held.onAccept (fresh : PoolAllocator.Fresh L malloc) (fds : List Int)
    (held : Held L malloc m live)
    (ran : onAccept L malloc fds m = (Outcome.returned m' : Outcome ε _)) :
    ∃ live', Held L malloc m' live' := by
  unfold Connections.onAccept at ran
  induction fds generalizing m live with
  | nil =>
    cases ran
    exact ⟨live, held⟩
  | cons fd fds ih =>
    rw [List.foldlM_cons] at ran
    obtain ⟨m₁, first, later⟩ := Outcome.bind_eq_returned.mp ran
    obtain ⟨live₁, held₁⟩ := held.accept fresh first
    exact ih held₁ later

/-- A connection is written back. -/
theorem Held.write (held : Held L malloc m live) (at_fd : m.conns.find fd = some c)
    (descriptor : conn.fd = fd) (engines : σ) :
    Held L malloc { m with pool := m.pool.write c conn, engines := engines } live := by
  refine ⟨held.runs.written (held.holds fd c at_fd).1 conn, ?_⟩
  intro fd' c' at_fd'
  obtain ⟨mem, conn', there, descriptor'⟩ := held.holds fd' c' at_fd'
  refine ⟨mem, ?_⟩
  dsimp only
  rw [PoolAllocator.read_write]
  split
  · rename_i same
    subst same
    exact ⟨conn, rfl, by rw [descriptor, held.unique at_fd at_fd']⟩
  · exact ⟨conn', there, descriptor'⟩

theorem Held.closeConn (held : Held L malloc m live)
    (at_fd : m.conns.find fd = some c)
    (ran : closeConn m c = (Outcome.returned m' : Outcome ε _)) :
    ∃ live', Held L malloc m' live' := by
  obtain ⟨conn, here, same⟩ := Outcome.bind_eq_returned.mp ran
  cases same
  obtain ⟨mem, conn', here', descriptor⟩ := held.holds fd c at_fd
  obtain rfl := Option.some.inj ((Outcome.ofOption_eq_returned.mp here).symm.trans here')
  refine ⟨live.erase c, held.runs.deallocated mem, ?_⟩
  intro fd' c' at_fd'
  rw [UnorderedMap.find_erase, descriptor] at at_fd'
  split at at_fd'
  · cases at_fd'
  · rename_i other
    obtain ⟨mem', conn', there, descriptor'⟩ := held.holds fd' c' at_fd'
    have apart : c' ≠ c := by
      rintro rfl
      exact other (held.unique at_fd' at_fd)
    refine ⟨(List.mem_erase_of_ne apart).mpr mem', conn', ?_, descriptor'⟩
    dsimp only
    rw [PoolAllocator.read_destroy apart, there]

theorem Held.onIo {ev : Server.IoEvent} (held : Held L malloc m live)
    (ran : onIo dispatch fuel fd ev m = Outcome.returned m') : ∃ live', Held L malloc m' live' := by
  unfold Connections.onIo at ran
  cases at_fd : m.conns.find fd with
  | none =>
    rw [at_fd] at ran
    cases ran
    exact ⟨live, held⟩
  | some c =>
    rw [at_fd] at ran
    obtain ⟨conn, here, ran⟩ := Outcome.bind_eq_returned.mp ran
    obtain ⟨-, conn', here', descriptor⟩ := held.holds fd c at_fd
    obtain rfl := Option.some.inj ((Outcome.ofOption_eq_returned.mp here).symm.trans here')
    obtain ⟨⟨res, conn₁, engines⟩, input, ran⟩ := Outcome.bind_eq_returned.mp ran
    have kept : (Server.onOutput conn₁ ev).fd = fd := by
      rw [Server.onOutput_fd, Server.onInput_fd input, descriptor]
    have held₁ := held.write at_fd kept engines
    dsimp only at ran
    split at ran
    · exact held₁.closeConn at_fd ran
    · cases ran
      exact ⟨live, held₁⟩

theorem Runs.held (fresh : PoolAllocator.Fresh L malloc) (runs : Runs L malloc dispatch fuel m) :
    ∃ live, Held L malloc m live := by
  induction runs with
  | @started m engines made =>
    obtain ⟨pool, constructed, same⟩ := Option.bind_eq_some_iff.mp made
    cases same
    exact ⟨[], PoolAllocator.Runs.constructed constructed, by simp⟩
  | stepped runs ev returned ih =>
    obtain ⟨live, held⟩ := ih
    cases ev with
    | acceptable fds => exact held.onAccept fresh fds returned
    | io fd ev => exact held.onIo returned
    | timer f =>
      cases returned
      exact ⟨live, held.runs, held.holds⟩

/-- Every run of a pool leaves each carved slot either live or on the free list, once, and
`allocate` returns a slot that is not live. So two open connections of a server have their own
`Conn` each, of which no byte is in the other, and each `Conn` is the one made for its
descriptor. -/
theorem pool_sound (dispatch : σ → List Bytes → Outcome ε (σ × Bytes)) (fuel : Nat)
    (fresh : PoolAllocator.Fresh L malloc) :
    (∀ {T : Type} (p : PoolAllocator T) (live : List Nat), PoolAllocator.Runs L malloc p live →
      PoolAllocator.Sound L malloc p live) ∧
    ∀ m : Connections σ, Runs L malloc dispatch fuel m →
      (∀ fd c, m.conns.find fd = some c → ∃ conn, m.pool.read c = some conn ∧ conn.fd = fd) ∧
      ∀ fd fd' c c', fd ≠ fd' → m.conns.find fd = some c → m.conns.find fd' = some c' →
        c ≠ c' ∧ (⟨c, L.sizeofSlot⟩ : Extent).Apart ⟨c', L.sizeofSlot⟩ := by
  constructor
  · intro T p live runs
    exact runs.sound fresh
  · intro m runs
    obtain ⟨live, held⟩ := runs.held fresh
    refine ⟨fun fd c at_fd => (held.holds fd c at_fd).2, ?_⟩
    intro fd fd' c c' differ at_fd at_fd'
    have apart : c ≠ c' := by
      rintro rfl
      exact differ (held.unique at_fd at_fd')
    exact ⟨apart, (held.runs.sound fresh).apart c (held.holds fd c at_fd).1 c'
      (held.holds fd' c' at_fd').1 apart⟩

/-- Blocks of two slots. -/
def twoSlots : PoolLayout := ⟨64, 32, by decide⟩

/-- A `malloc` whose blocks are a thousand bytes from each other. -/
def thousands (n : Nat) : Option Nat := some (1000 * (n + 1))

theorem fresh_thousands : PoolAllocator.Fresh twoSlots thousands := by
  rintro i j a b differ ⟨⟩ ⟨⟩ _ _
  have bytes : twoSlots.count * twoSlots.sizeofSlot = 64 := rfl
  unfold Extent.stop
  dsimp only
  omega

/-- A dispatcher that does nothing and replies nothing. -/
def silent (s : Unit) (_ : List Bytes) : Outcome Unit (Unit × Bytes) := Outcome.returned (s, [])

/-- The third of three connections is in the second block. -/
theorem pool_sound_three : ∃ m : Connections Unit, Runs twoSlots thousands silent 1 m ∧
    m.conns.find 5 = some 1000 ∧ m.conns.find 9 = some 2000 ∧
    (⟨1000, 32⟩ : Extent).Apart ⟨2000, 32⟩ ∧
    PoolAllocator.Sound twoSlots thousands m.pool [2000, 1032, 1000] := by
  obtain ⟨pools, tables⟩ := pool_sound silent 1 fresh_thousands
  have made : start twoSlots thousands () = some _ := rfl
  have runs : Runs twoSlots thousands silent 1 _ :=
    (Runs.started made).stepped (.acceptable [5, 7, 9]) rfl
  have nothing : PoolAllocator.Runs twoSlots thousands (_ : PoolAllocator Conn) [] :=
    .constructed rfl
  have first := (nothing.allocated rfl).written List.mem_cons_self (Server.accepted 5)
  have second := (first.allocated rfl).written List.mem_cons_self (Server.accepted 7)
  have third := (second.allocated rfl).written List.mem_cons_self (Server.accepted 9)
  exact ⟨_, runs, rfl, rfl, ((tables _ runs).2 5 9 1000 2000 (by decide) rfl rfl).2,
    pools _ _ third⟩

end Connections

end FastGraph
