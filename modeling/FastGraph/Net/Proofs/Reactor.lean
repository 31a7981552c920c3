import FastGraph.Net.Proofs.Connections
import FastGraph.Net.Reactor

/-!
# Every event reaches its connection

The tables of descriptors agree: those that are open for connections are those in `conns_`, those
with a handler and those that are watched. In a batch an event may close its own descriptor, which
a later one accepts anew; no event that still waits is for it, since a descriptor is in a batch
once. So an event finds the connection that it was for when `epoll_wait` returned.
-/

namespace FastGraph.EventLoop

variable {σ ε : Type} {L : PoolLayout} {malloc : Nat → Option Nat} {m m₁ m' : EventLoop σ}
  {dispatch : σ → List Bytes → Outcome ε (σ × Bytes)} {fuel : Nat} {fd : Int}

/-! ### The tables -/

/-- The tables of descriptors agree. -/
structure Agree (L : PoolLayout) (malloc : Nat → Option Nat) (m : EventLoop σ) : Prop where
  held : ∃ live, Connections.Held L malloc m.server live
  apart : m.listenFd ≠ m.reactor.eventFd
  unused : m.listenFd ∉ m.opened ∧ m.reactor.eventFd ∉ m.opened
  once : m.opened.Nodup
  conns : ∀ fd, fd ∈ m.opened ↔ m.server.conns.find fd ≠ none
  onIo : ∀ fd, m.reactor.handlers.find fd = some .onIo ↔ fd ∈ m.opened
  onAccept : ∀ fd, m.reactor.handlers.find fd = some .onAccept ↔ fd = m.listenFd
  watched : ∀ fd, fd ∈ m.reactor.watched ↔ fd = m.reactor.eventFd ∨ fd = m.listenFd ∨ fd ∈ m.opened
  watchedOnce : m.reactor.watched.Nodup

theorem agree_start {eventFd listenFd : Int} {engines : σ} (apart : listenFd ≠ eventFd)
    (made : start L malloc eventFd listenFd engines = some m) : Agree L malloc m := by
  obtain ⟨server, begun, same⟩ := Option.bind_eq_some_iff.mp made
  cases same
  obtain ⟨pool, constructed, same⟩ := Option.bind_eq_some_iff.mp begun
  cases same
  have handlers (fd : Int) : ((Reactor.construct eventFd).add listenFd Callback.onAccept).handlers.find
      fd = if fd = listenFd then some .onAccept else none := by
    rw [Reactor.add, UnorderedMap.find_set]
    rfl
  refine ⟨⟨[], PoolAllocator.Runs.constructed constructed, by simp⟩, apart, by simp, by simp, ?_, ?_,
    ?_, ?_, ?_⟩
  · intro fd
    simp
  · intro fd
    rw [handlers]
    split <;> simp
  · intro fd
    rw [handlers]
    split <;> simp_all
  · intro fd
    simp [Reactor.add, Reactor.construct, apart, or_comm]
  · simp [Reactor.add, Reactor.construct, apart]

/-- What an event of `fd` leaves alone: the connections of all other descriptors. -/
structure Spares (fd : Int) (m m' : EventLoop σ) : Prop where
  listenFd : m'.listenFd = m.listenFd
  eventFd : m'.reactor.eventFd = m.reactor.eventFd
  conns : ∀ fd' c, fd' ≠ fd → m.server.conns.find fd' = some c →
    m'.server.conns.find fd' = some c ∧ m'.server.pool.read c = m.server.pool.read c

theorem Spares.refl (fd : Int) (m : EventLoop σ) : Spares fd m m :=
  ⟨rfl, rfl, fun _ _ _ here => ⟨here, rfl⟩⟩

theorem Spares.trans (first : Spares fd m m₁) (second : Spares fd m₁ m') : Spares fd m m' := by
  refine ⟨second.listenFd.trans first.listenFd, second.eventFd.trans first.eventFd, ?_⟩
  intro fd' c other here
  obtain ⟨here₁, same₁⟩ := first.conns fd' c other here
  obtain ⟨here', same'⟩ := second.conns fd' c other here₁
  exact ⟨here', same'.trans same₁⟩

/-! ### Accepting -/

/-- A connection that is accepted gets a handler and a watch, and disturbs no other. -/
theorem Agree.accept (fresh : PoolAllocator.Fresh L malloc) (agree : Agree L malloc m)
    (unused : m.Unused fd) (ran : accept L malloc m fd = (Outcome.returned m' : Outcome ε _)) :
    Agree L malloc m' ∧ (∀ fd', m.Unused fd' → fd' ≠ fd → m'.Unused fd') ∧
      ∀ fd', Spares fd' m m' := by
  obtain ⟨server, accepted, same⟩ := Outcome.bind_eq_returned.mp ran
  cases same
  obtain ⟨notOpen, notListen, notEvent⟩ := unused
  obtain ⟨live, held⟩ := agree.held
  have held' := held.accept fresh accepted
  obtain ⟨⟨pool, c⟩, made, same⟩ := Outcome.bind_eq_returned.mp accepted
  cases same
  obtain ⟨-, -, others⟩ := held.runs.make fresh (Outcome.ofOption_eq_returned.mp made)
  have notWatched : fd ∉ m.reactor.watched := by
    rw [agree.watched]
    simp [notOpen, notListen, notEvent]
  have differs (fd' : Int) (here : fd' ∈ m.opened) : fd' ≠ fd := by
    rintro rfl
    exact notOpen here
  refine ⟨⟨held', agree.apart, ?_, ?_, ?_, ?_, ?_, ?_, ?_⟩, ?_, ?_⟩
  · simp only [List.mem_cons, not_or]
    exact ⟨⟨Ne.symm notListen, agree.unused.1⟩, Ne.symm notEvent, agree.unused.2⟩
  · exact List.nodup_cons.mpr ⟨notOpen, agree.once⟩
  · intro fd'
    rw [List.mem_cons, agree.conns fd']
    dsimp only
    rw [UnorderedMap.find_set]
    split <;> simp_all
  · intro fd'
    rw [List.mem_cons, ← agree.onIo fd', Reactor.add, UnorderedMap.find_set]
    split <;> simp_all
  · intro fd'
    rw [← agree.onAccept fd', Reactor.add, UnorderedMap.find_set]
    split
    · rename_i same
      subst same
      simp [agree.onAccept, notListen]
    · rfl
  · intro fd'
    simp only [Reactor.add, notWatched, if_false, List.mem_cons, agree.watched fd']
    tauto
  · simp only [Reactor.add, notWatched, if_false]
    exact List.nodup_cons.mpr ⟨notWatched, agree.watchedOnce⟩
  · rintro fd' ⟨notOpen', notListen', notEvent'⟩ other
    exact ⟨by simp [other, notOpen'], notListen', notEvent'⟩
  · intro fd'
    refine ⟨rfl, rfl, ?_⟩
    intro fd'' c' _ here
    have open' : fd'' ∈ m.opened := (agree.conns fd'').mpr (by rw [here]; simp)
    dsimp only
    rw [UnorderedMap.find_set, if_neg (differs fd'' open')]
    exact ⟨here, others c' (held.holds fd'' c' here).1⟩

theorem Agree.acceptAll (fresh : PoolAllocator.Fresh L malloc) (agree : Agree L malloc m)
    {fds : List Int} (acceptable : m.Acceptable fds)
    (ran : fds.foldlM (EventLoop.accept L malloc) m = (Outcome.returned m' : Outcome ε _)) :
    Agree L malloc m' ∧ ∀ fd', Spares fd' m m' := by
  induction fds generalizing m with
  | nil =>
    cases ran
    exact ⟨agree, fun fd' => .refl fd' _⟩
  | cons fd fds ih =>
    obtain ⟨distinct, unused⟩ := acceptable
    obtain ⟨notMem, distinct⟩ := List.nodup_cons.mp distinct
    rw [List.foldlM_cons] at ran
    obtain ⟨m₁, first, later⟩ := Outcome.bind_eq_returned.mp ran
    obtain ⟨agree₁, unused₁, spares⟩ := agree.accept fresh (unused fd List.mem_cons_self) first
    have acceptable₁ : m₁.Acceptable fds := by
      refine ⟨distinct, ?_⟩
      intro fd' mem
      refine unused₁ fd' (unused fd' (List.mem_cons_of_mem _ mem)) ?_
      rintro rfl
      exact notMem mem
    obtain ⟨agree', spares'⟩ := ih agree₁ acceptable₁ later
    exact ⟨agree', fun fd' => (spares fd').trans (spares' fd')⟩

/-! ### Reading, writing and closing -/

/-- A connection is written back. -/
theorem Agree.write (agree : Agree L malloc m) {c : Nat} {conn : Conn}
    (at_fd : m.server.conns.find fd = some c) (descriptor : conn.fd = fd) (engines : σ) :
    Agree L malloc { m with
      server := { m.server with pool := m.server.pool.write c conn, engines := engines } } ∧
    Spares fd m { m with
      server := { m.server with pool := m.server.pool.write c conn, engines := engines } } := by
  obtain ⟨live, held⟩ := agree.held
  refine ⟨⟨⟨live, held.write at_fd descriptor engines⟩, agree.apart, agree.unused, agree.once,
    agree.conns, agree.onIo, agree.onAccept, agree.watched, agree.watchedOnce⟩, rfl, rfl, ?_⟩
  intro fd' c' other here
  refine ⟨here, ?_⟩
  dsimp only
  rw [PoolAllocator.read_write, if_neg]
  rintro rfl
  exact other (held.unique here at_fd)

/-- A connection that is closed has no handler and no watch any more, and disturbs no other. -/
theorem Agree.closeConn (agree : Agree L malloc m) {c : Nat}
    (at_fd : m.server.conns.find fd = some c)
    (ran : m.closeConn c = (Outcome.returned m' : Outcome ε _)) :
    Agree L malloc m' ∧ Spares fd m m' := by
  obtain ⟨conn, here, ran⟩ := Outcome.bind_eq_returned.mp ran
  obtain ⟨server, closed, same⟩ := Outcome.bind_eq_returned.mp ran
  cases same
  obtain ⟨live, held⟩ := agree.held
  have held' := held.closeConn at_fd closed
  obtain ⟨mem, conn', here', descriptor⟩ := held.holds fd c at_fd
  obtain rfl := Option.some.inj ((Outcome.ofOption_eq_returned.mp here).symm.trans here')
  obtain ⟨conn', again, same⟩ := Outcome.bind_eq_returned.mp closed
  cases same
  obtain rfl := Outcome.returned_inj.mp (here.symm.trans again)
  rw [descriptor] at held' ⊢
  have isOpen : fd ∈ m.opened := (agree.conns fd).mpr (by rw [at_fd]; simp)
  have notListen : fd ≠ m.listenFd := by
    rintro rfl
    exact agree.unused.1 isOpen
  have notEvent : fd ≠ m.reactor.eventFd := by
    rintro rfl
    exact agree.unused.2 isOpen
  refine ⟨⟨held', agree.apart, ?_, agree.once.erase fd, ?_, ?_, ?_, ?_, agree.watchedOnce.erase fd⟩,
    rfl, rfl, ?_⟩
  · exact ⟨fun mem => agree.unused.1 (List.mem_of_mem_erase mem),
      fun mem => agree.unused.2 (List.mem_of_mem_erase mem)⟩
  · intro fd'
    rw [agree.once.mem_erase_iff, agree.conns fd']
    dsimp only
    rw [UnorderedMap.find_erase]
    split <;> simp_all
  · intro fd'
    rw [agree.once.mem_erase_iff, ← agree.onIo fd', Reactor.remove, UnorderedMap.find_erase]
    split <;> simp_all
  · intro fd'
    rw [← agree.onAccept fd', Reactor.remove, UnorderedMap.find_erase]
    split
    · rename_i same
      subst same
      simp [agree.onAccept, notListen]
    · rfl
  · intro fd'
    rw [Reactor.remove, agree.watchedOnce.mem_erase_iff, agree.watched fd',
      agree.once.mem_erase_iff]
    by_cases same : fd' = fd
    · simp [same, notListen, notEvent]
    · simp [same]
  · intro fd' c' other here''
    dsimp only
    rw [UnorderedMap.find_erase, if_neg other]
    refine ⟨here'', PoolAllocator.read_destroy ?_⟩
    rintro rfl
    exact other (held.unique here'' at_fd)

theorem Agree.onIo_returned {ev : Server.IoEvent} (agree : Agree L malloc m)
    (ran : EventLoop.onIo dispatch fuel fd ev m = Outcome.returned m') :
    Agree L malloc m' ∧ Spares fd m m' := by
  unfold EventLoop.onIo at ran
  cases at_fd : m.server.conns.find fd with
  | none =>
    rw [at_fd] at ran
    cases ran
    exact ⟨agree, .refl fd m⟩
  | some c =>
    rw [at_fd] at ran
    obtain ⟨conn, here, ran⟩ := Outcome.bind_eq_returned.mp ran
    obtain ⟨live, held⟩ := agree.held
    obtain ⟨-, conn', here', descriptor⟩ := held.holds fd c at_fd
    obtain rfl := Option.some.inj ((Outcome.ofOption_eq_returned.mp here).symm.trans here')
    obtain ⟨⟨res, conn₁, engines⟩, input, ran⟩ := Outcome.bind_eq_returned.mp ran
    have kept : (Server.onOutput conn₁ ev).fd = fd := by
      rw [Server.onOutput_fd, Server.onInput_fd input, descriptor]
    obtain ⟨agree₁, spares₁⟩ := agree.write at_fd kept engines
    dsimp only at ran
    split at ran
    · obtain ⟨agree', spares'⟩ := agree₁.closeConn at_fd ran
      exact ⟨agree', spares₁.trans spares'⟩
    · cases ran
      exact ⟨agree₁, spares₁⟩

/-! ### Batches -/

/-- One event. -/
theorem Agree.call (fresh : PoolAllocator.Fresh L malloc) (agree : Agree L malloc m) {e : Ready}
    (acceptable : m.Acceptable e.accepted)
    (called : EventLoop.call L malloc dispatch fuel m e = Outcome.returned m') :
    Agree L malloc m' ∧ Spares e.fd m m' := by
  unfold EventLoop.call at called
  split at called
  · cases called
    exact ⟨agree, .refl _ m⟩
  · split at called
    · cases called
      exact ⟨agree, .refl _ m⟩
    · obtain ⟨agree', spares⟩ := agree.acceptAll fresh acceptable called
      exact ⟨agree', spares e.fd⟩
    · exact agree.onIo_returned called

theorem Agree.calls (fresh : PoolAllocator.Fresh L malloc) (agree : Agree L malloc m)
    {es : List Ready} (calls : Calls L malloc dispatch fuel m es m') : Agree L malloc m' := by
  induction calls with
  | nil => exact agree
  | cons acceptable called _ ih => exact ih (agree.call fresh acceptable called).1

theorem Agree.fired (agree : Agree L malloc m) (f : σ → σ) : Agree L malloc (fired f m) := by
  obtain ⟨live, held⟩ := agree.held
  exact ⟨⟨live, held.runs, held.holds⟩, agree.apart, agree.unused, agree.once, agree.conns,
    agree.onIo, agree.onAccept, agree.watched, agree.watchedOnce⟩

theorem Runs.agree (fresh : PoolAllocator.Fresh L malloc) (runs : Runs L malloc dispatch fuel m) :
    Agree L malloc m := by
  induction runs with
  | started apart made => exact agree_start apart made
  | polled _ f _ calls ih => exact (ih.fired f).calls fresh calls

/-! ### The server below the reactor -/

theorem acceptAll_server (fds : List Int)
    (ran : fds.foldlM (EventLoop.accept L malloc) m = (Outcome.returned m' : Outcome ε _)) :
    Connections.onAccept L malloc fds m.server = (Outcome.returned m'.server : Outcome ε _) := by
  unfold Connections.onAccept
  induction fds generalizing m with
  | nil =>
    cases ran
    rfl
  | cons fd fds ih =>
    rw [List.foldlM_cons] at ran ⊢
    obtain ⟨m₁, first, later⟩ := Outcome.bind_eq_returned.mp ran
    obtain ⟨server, accepted, same⟩ := Outcome.bind_eq_returned.mp first
    cases same
    exact Outcome.bind_eq_returned.mpr ⟨server, accepted, ih later⟩

theorem onIo_server {ev : Server.IoEvent}
    (ran : EventLoop.onIo dispatch fuel fd ev m = Outcome.returned m') :
    Connections.onIo dispatch fuel fd ev m.server = Outcome.returned m'.server := by
  unfold EventLoop.onIo at ran
  unfold Connections.onIo
  cases at_fd : m.server.conns.find fd with
  | none =>
    rw [at_fd] at ran
    cases ran
    rfl
  | some c =>
    rw [at_fd] at ran
    obtain ⟨conn, here, ran⟩ := Outcome.bind_eq_returned.mp ran
    obtain ⟨⟨res, conn₁, engines⟩, input, ran⟩ := Outcome.bind_eq_returned.mp ran
    refine Outcome.bind_eq_returned.mpr ⟨conn, here, Outcome.bind_eq_returned.mpr ⟨_, input, ?_⟩⟩
    dsimp only at ran ⊢
    split at ran
    · rename_i closing
      rw [if_pos closing]
      obtain ⟨conn₂, -, ran⟩ := Outcome.bind_eq_returned.mp ran
      obtain ⟨server, closed, same⟩ := Outcome.bind_eq_returned.mp ran
      cases same
      exact closed
    · rename_i open'
      rw [if_neg open']
      cases ran
      rfl

theorem Calls.server {es : List Ready} (calls : Calls L malloc dispatch fuel m es m')
    (runs : Connections.Runs L malloc dispatch fuel m.server) :
    Connections.Runs L malloc dispatch fuel m'.server := by
  induction calls with
  | nil => exact runs
  | @cons m m₁ m' e es _ called _ ih =>
    apply ih
    unfold EventLoop.call at called
    split at called
    · cases called
      exact runs
    · split at called
      · cases called
        exact runs
      · exact runs.stepped (.acceptable e.accepted) (acceptAll_server _ called)
      · exact runs.stepped (.io e.fd e.io) (onIo_server called)

/-! ### A run of two connections -/

/-- Connections that wait at the listening socket. -/
def callers (fds : List Int) : Ready := ⟨4, fds, ⟨none, none⟩⟩

/-- A connection whose peer has closed. -/
def peerGone (fd : Int) : Ready := ⟨fd, [], ⟨some ([], .gone), none⟩⟩

/-- The loop after two connections. -/
theorem runs_two : ∃ m : EventLoop Unit, Runs Connections.twoSlots Connections.thousands
    Connections.silent 1 m ∧ m.reactor.watched = [6, 5, 4, 3] ∧ m.reactor.eventFd = 3 ∧
    m.listenFd = 4 ∧ ∃ m', Calls Connections.twoSlots Connections.thousands
      Connections.silent 1 (fired id m) [peerGone 5, callers [5]] m' := by
  have made : start Connections.twoSlots Connections.thousands 3 4 () = some _ := rfl
  have begun : Runs Connections.twoSlots Connections.thousands Connections.silent 1 _ :=
    .started (by decide) made
  refine ⟨_, begun.polled id ?_ (.cons (e := callers [5, 6]) ?_ rfl .nil), rfl, rfl, rfl, _,
    .cons ?_ rfl (.cons ?_ rfl .nil)⟩
  · unfold Batch
    decide
  all_goals
    unfold Acceptable Unused
    decide

/-! ### Every run -/

/-- In every reachable state the descriptors that are open for connections are those in `conns_`,
those with a handler of `on_accept` and those that are watched, apart from the fixed ones, and the
server is in a state that the handlers lead to when they are called one by one. -/
theorem tables_agree (fresh : PoolAllocator.Fresh L malloc) (runs : Runs L malloc dispatch fuel m) :
    Agree L malloc m ∧ Connections.Runs L malloc dispatch fuel m.server := by
  refine ⟨runs.agree fresh, ?_⟩
  induction runs with
  | started apart made =>
    obtain ⟨server, begun, same⟩ := Option.bind_eq_some_iff.mp made
    cases same
    exact .started begun
  | polled _ f _ calls ih =>
    exact calls.server (ih.stepped (.timer f) rfl)

theorem tables_agree_two : ∃ m : EventLoop Unit, m.reactor.watched = [6, 5, 4, 3] ∧
    Agree Connections.twoSlots Connections.thousands m ∧ Connections.Runs Connections.twoSlots
      Connections.thousands Connections.silent 1 m.server := by
  obtain ⟨m, runs, watched, -⟩ := runs_two
  exact ⟨m, watched, tables_agree Connections.fresh_thousands runs⟩

/-- Events of other descriptors leave a connection alone. -/
theorem Calls.spares (fresh : PoolAllocator.Fresh L malloc) (agree : Agree L malloc m)
    {es : List Ready} (calls : Calls L malloc dispatch fuel m es m')
    (others : fd ∉ es.map Ready.fd) :
    m'.listenFd = m.listenFd ∧ ∀ c, m.server.conns.find fd = some c →
      m'.server.conns.find fd = some c ∧ m'.server.pool.read c = m.server.pool.read c := by
  induction calls with
  | nil => exact ⟨rfl, fun c here => ⟨here, rfl⟩⟩
  | cons acceptable called _ ih =>
    simp only [List.map_cons, List.mem_cons, not_or] at others
    obtain ⟨agree₁, spares⟩ := agree.call fresh acceptable called
    obtain ⟨listenFd, later⟩ := ih agree₁ others.2
    refine ⟨listenFd.trans spares.listenFd, ?_⟩
    intro c here
    obtain ⟨here₁, same₁⟩ := spares.conns fd c others.1 here
    obtain ⟨here', same'⟩ := later c here₁
    exact ⟨here', same'.trans same₁⟩

/-- When its turn in a batch comes, an event is for the event descriptor, or for the listening
socket, or it finds the connection that its descriptor had when `epoll_wait` returned, in the same
`Conn` with nothing changed, whatever the events before it have accepted and closed. -/
theorem events_delivered (fresh : PoolAllocator.Fresh L malloc)
    (runs : Runs L malloc dispatch fuel m) (f : σ → σ) {before after : List Ready} {e : Ready}
    (batch : m.Batch (before ++ e :: after))
    (calls : Calls L malloc dispatch fuel (fired f m) before m') :
    e.fd = m.reactor.eventFd ∨
      (e.fd = m.listenFd ∧ m'.reactor.handlers.find e.fd = some .onAccept) ∨
      ∃ c conn, m.server.conns.find e.fd = some c ∧ m.server.pool.read c = some conn ∧
        m'.reactor.handlers.find e.fd = some .onIo ∧ m'.server.conns.find e.fd = some c ∧
        m'.server.pool.read c = some conn := by
  have agree := runs.agree fresh
  have agree' := (agree.fired f).calls fresh calls
  have others : e.fd ∉ before.map Ready.fd := by
    have distinct := batch.1
    rw [List.map_append, List.map_cons, List.nodup_append] at distinct
    intro mem
    exact distinct.2.2 e.fd mem e.fd List.mem_cons_self rfl
  obtain ⟨listenFd, spares⟩ := calls.spares fresh (agree.fired f) others
  rcases (agree.watched e.fd).mp (batch.2 e (by simp)) with event | listen | isOpen
  · exact Or.inl event
  · exact Or.inr (Or.inl ⟨listen, (agree'.onAccept e.fd).mpr (listen.trans listenFd.symm)⟩)
  · obtain ⟨c, at_fd⟩ := Option.ne_none_iff_exists'.mp ((agree.conns e.fd).mp isOpen)
    obtain ⟨live, held⟩ := agree.held
    obtain ⟨-, conn, here, -⟩ := held.holds e.fd c at_fd
    obtain ⟨at_fd', same⟩ := spares c at_fd
    have open' : e.fd ∈ m'.opened := (agree'.conns e.fd).mpr (by rw [at_fd']; simp)
    exact Or.inr (Or.inr ⟨c, conn, at_fd, here, (agree'.onIo e.fd).mpr open', at_fd',
      same.trans here⟩)

/-- The descriptor 5 is closed and accepted again in front of the event of 6, which finds its own
connection. -/
theorem events_delivered_reused : ∃ (m m' : EventLoop Unit) (c : Nat) (conn : Conn),
    Calls Connections.twoSlots Connections.thousands Connections.silent 1 (fired id m)
      [peerGone 5, callers [5]] m' ∧
    m.server.conns.find 6 = some c ∧ m.server.pool.read c = some conn ∧
    m'.server.conns.find 6 = some c ∧ m'.server.pool.read c = some conn := by
  obtain ⟨m, runs, watched, eventFd, listenFd, m', calls⟩ := runs_two
  have batch : m.Batch ([peerGone 5, callers [5]] ++ peerGone 6 :: []) := by
    unfold Batch
    rw [watched]
    decide
  rcases events_delivered Connections.fresh_thousands runs id batch calls with event | ⟨listen, -⟩ |
    ⟨c, conn, at_fd, here, -, at_fd', here'⟩
  · rw [eventFd] at event
    cases event
  · rw [listenFd] at listen
    cases listen
  · exact ⟨m, m', c, conn, calls, at_fd, here, at_fd', here'⟩

end FastGraph.EventLoop
