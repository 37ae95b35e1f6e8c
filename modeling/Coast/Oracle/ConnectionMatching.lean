import Coast.Oracle.ConnectionAccounts

/-!
# Whom a connection that is handed out is open for

Open connections are found by the text "server.user", which different names
may share.
-/

namespace Coast.ConnectionPool

open Function List Option

variable {ι : Type}

def freeSessions (this : ConnectionPool ι) : List (Bytes × Bytes) :=
  this.fListOfConnections.openEntries.filterMap fun entry => (this.connections entry.1).session

def sameText (server user : Bytes) (session : Bytes × Bytes) : Bool :=
  isEqual (joined server user) (joined session.1 session.2)

def handOut (this : ConnectionPool ι) (server user : Bytes) : Option OraclePooledConnection :=
  (intBorrowConnection this.fListOfConnections server user).map
    fun (pConnection, _, mustClose) =>
      if mustClose then (this.connections pConnection).close
      else this.connections pConnection

/-- The lists say what the connections in them are open for. -/
structure Described (this : ConnectionPool ι) : Prop where
  unused : ∀ c ∈ this.fListOfConnections.fUnused, (this.connections c).session = none
  opened : ∀ entry ∈ this.fListOfConnections.openEntries,
    ∃ session, (this.connections entry.1).session = some session ∧
      entry.2 = joined session.1 session.2
  names : ∀ c session, (this.connections c).session = some session →
    (this.connections c).fServer = session.1 ∧
    (this.connections c).fUser = session.2

theorem init_described (n : Nat) : Described (init (ι := ι) n) := by
  constructor
  · intro c _
    rfl
  · rw [connections_init]
    intro entry mem
    cases mem
  · intro c session open_
    cases open_

variable {this : ConnectionPool ι}

theorem Described.of_subset (inv : Described this) {list : ConnectionList}
    (unused : list.fUnused ⊆ this.fListOfConnections.fUnused)
    (opened : list.openEntries ⊆ this.fListOfConnections.openEntries)
    (acquired : List (ι × Bytes × Bytes)) (borrowed : List (ι × Nat)) :
    Described { this with
      fListOfConnections := list
      acquired := acquired
      borrowed := borrowed } :=
  ⟨fun c mem => inv.unused c (unused mem),
    fun entry mem => inv.opened entry (opened mem), inv.names⟩

variable {c : Nat}

theorem Described.update (inv : Described this) (notFree : c ∉ this.fListOfConnections.connections)
    {connection : OraclePooledConnection}
    (names : ∀ session, connection.session = some session →
      connection.fServer = session.1 ∧ connection.fUser = session.2) :
    Described (this.update_ c connection) := by
  have notUnused : c ∉ this.fListOfConnections.fUnused :=
    fun mem => notFree (mem_append_left _ mem)
  have notOpen : ∀ entry ∈ this.fListOfConnections.openEntries, entry.1 ≠ c := by
    rintro entry mem rfl
    exact notFree (mem_append_right _ (mem_map_of_mem mem))
  constructor
  · intro d mem
    have other : d ≠ c := ne_of_mem_of_not_mem mem notUnused
    simp only [update_, update_of_ne other]
    exact inv.unused d mem
  · intro entry mem
    simp only [update_, update_of_ne (notOpen entry mem)]
    exact inv.opened entry mem
  · intro d session open_
    by_cases same : d = c
    · subst same
      simp only [update_, update_self] at open_ ⊢
      exact names session open_
    · simp only [update_, update_of_ne same] at open_ ⊢
      exact inv.names d session open_

theorem Described.close (inv : Described this) (notFree : c ∉ this.fListOfConnections.connections) :
    Described (this.update_ c (this.connections c).close) :=
  inv.update notFree (fun _ open_ => nomatch open_)

variable {n : Nat}

theorem Placed.not_free
    (inv : Placed n this) {me : ι} {c : Nat} (has : (me, c) ∈ this.borrowed) :
    c ∉ this.fListOfConnections.connections := by
  intro free
  have apart := (nodup_append.mp inv.nodup).2.2
  exact apart c (mem_map_of_mem has) c free rfl

theorem Takes.not_free {before after : ConnectionList}
    (takes : Takes before c after) (nodup : before.connections.Nodup) :
    c ∉ after.connections :=
  (nodup_cons.mp (takes.connections.nodup_iff.mp nodup)).1

theorem matches_joined (server user : Bytes) (entry : Nat × Bytes) :
    matches_ (joined server user) entry = isEqual (joined server user) entry.2 := by
  simp [matches_, joined]

theorem find?_freeSessions (inv : Described this) (server user : Bytes) :
    this.freeSessions.find? (sameText server user) =
      (this.fListOfConnections.openEntries.find? (matches_ (joined server user))).bind
        fun entry => (this.connections entry.1).session := by
  have opened := inv.opened
  rw [freeSessions]
  generalize this.fListOfConnections.openEntries = entries at opened ⊢
  induction entries with
  | nil => rfl
  | cons entry entries ih =>
    have rest := ih fun other mem => opened other (.tail entry mem)
    rcases opened entry (.head entries) with ⟨session, open_, text⟩
    have same : matches_ (joined server user) entry = sameText server user session := by
      rw [matches_joined, text]
      rfl
    simp only [filterMap_cons, open_]
    cases match_ : sameText server user session with
    | true =>
      rw [find?_cons_of_pos match_, find?_cons_of_pos (same.trans match_)]
      exact open_.symm
    | false =>
      rw [find?_cons_of_neg (by simp [match_]), find?_cons_of_neg (by simp [same, match_])]
      exact rest

theorem handOut_of_none (inv : Described this)
    {server user : Bytes} (hasServer : server ≠ []) (hasUser : user ≠ [])
    (none_ : this.fListOfConnections.openEntries.find? (matches_ (joined server user)) = none)
    {connection : OraclePooledConnection} (out : connection ∈ this.handOut server user) :
    connection.session = none := by
  rcases map_eq_some_iff.mp out with ⟨⟨c, list, mustClose⟩, gets, rfl⟩
  rcases intBorrowConnection_cases gets with ⟨_, _, gets, _⟩ | ⟨unused, _, rfl⟩ | ⟨_, rfl⟩
  · rw [← strToLookup_of_names hasServer hasUser] at none_
    rw [intGetOpen_none none_] at gets
    cases gets
  · exact inv.unused c (unused ▸ .head _)
  · rfl

theorem handOut_of_some {server user : Bytes}
    (hasServer : server ≠ []) (hasUser : user ≠ []) {entry : Nat × Bytes}
    (first : this.fListOfConnections.openEntries.find?
      (matches_ (joined server user)) = some entry) :
    this.handOut server user = some (this.connections entry.1) := by
  rw [← strToLookup_of_names hasServer hasUser] at first
  rcases intGetOpen_some first with ⟨after, gets, _⟩
  simp [handOut, intBorrowConnection, hasServer, hasUser, gets]

/-! ## The steps keep the description -/

theorem closeTimeouted_subset (timeouted : Bytes → Bool)
    (fOpen : List (Bytes × List (Nat × Bytes))) :
    (closeTimeouted timeouted fOpen).1 ⊆ fOpen := by
  induction fOpen with
  | nil => exact List.Subset.refl _
  | cons entry fOpen ih =>
    rw [closeTimeouted]
    split
    · exact subset_cons_of_subset entry ih
    · exact List.Subset.refl _

theorem checkClose_described
    (counted : Placed n this) (inv : Described this) (timeouted : Bytes → Bool) :
    Described (this.checkCloseOpenedConnections timeouted) := by
  have fewer := closeTimeouted_subset timeouted this.fListOfConnections.fOpen
  have moved := closeTimeouted_perm timeouted this.fListOfConnections.fOpen
  -- what is left in `/Open` has not been closed
  have apart : ∀ entry ∈ (closeTimeouted timeouted
      this.fListOfConnections.fOpen).1.flatMap Prod.snd,
      entry.1 ∉ (closeTimeouted timeouted this.fListOfConnections.fOpen).2 := by
    intro entry left closed
    have once := (nodup_append.mp (nodup_append.mp counted.nodup).2.1).2.1
    have disjoint := (nodup_append.mp (moved.nodup_iff.mpr once)).2.2
    exact disjoint entry.1 closed entry.1 (mem_map_of_mem left) rfl
  constructor
  · intro c mem
    simp only [checkCloseOpenedConnections]
    split
    · rfl
    · next notClosed =>
        rcases mem_append.mp mem with unused | closed
        · exact inv.unused c unused
        · exact absurd closed notClosed
  · intro entry mem
    simp only [checkCloseOpenedConnections]
    rw [if_neg (apart entry mem)]
    rcases mem_flatMap.mp mem with ⟨stamp, left, here⟩
    exact inv.opened entry (mem_flatMap.mpr ⟨stamp, fewer left, here⟩)
  · intro c session
    simp only [checkCloseOpenedConnections]
    split
    · exact fun open_ => nomatch open_
    · exact inv.names c session

variable [DecidableEq ι]

theorem borrowConnection_described {me : ι} {server user : Bytes} (counted : Placed n this)
    (inv : Described this) : Described (this.borrowConnection me server user) := by
  rcases borrowConnection_cases this me server user with
    ⟨-, borrows⟩ | ⟨c, list, mustClose, -, takes, borrows⟩
  · rw [borrows]
    exact ⟨inv.unused, inv.opened, inv.names⟩
  · have fewer := inv.of_subset takes.unused takes.opened
      (this.acquired.erase (me, server, user)) ((me, c) :: this.borrowed)
    have once := (nodup_append.mp counted.nodup).2.1
    rw [borrows]
    cases mustClose with
    | false => exact fewer
    | true => exact fewer.close (takes.not_free once)

theorem releaseConnection_described {me : ι} {aStamp : Bytes} (inv : Described this) :
    Described (this.releaseConnection me c aStamp) := by
  cases session : (this.connections c).session with
  | none =>
    have stored : intReleaseConnection this.fListOfConnections c
        (this.connections c) aStamp =
        { this.fListOfConnections with
          fUnused := this.fListOfConnections.fUnused ++ [c] } := by
      simp [intReleaseConnection, OraclePooledConnection.isOpen, session]
    rw [releaseConnection, stored]
    refine ⟨?_, inv.opened, inv.names⟩
    intro d mem
    rcases mem_append.mp mem with unused | last
    · exact inv.unused d unused
    · rw [mem_singleton.mp last]
      exact session
  | some names =>
    rcases inv.names c names session with ⟨sameServer, sameUser⟩
    have stored : intReleaseConnection this.fListOfConnections c
        (this.connections c) aStamp =
        { this.fListOfConnections with
          fOpen := appendOpen aStamp (c, joined names.1 names.2)
            this.fListOfConnections.fOpen } := by
      simp [intReleaseConnection, OraclePooledConnection.isOpen, session, sameServer, sameUser]
    rw [releaseConnection, stored]
    refine ⟨inv.unused, ?_, inv.names⟩
    intro entry mem
    rcases mem_cons.mp ((appendOpen_flatMap aStamp _ _).mem_iff.mp mem) with rfl | before
    · exact ⟨names, session, rfl⟩
    · exact inv.opened entry before

theorem step_described {after : ConnectionPool ι} {action : PoolStep ι} (counted : Placed n this)
    (inv : Described this) (steps : this.step action = some after) : Described after := by
  cases action with
  | acquire me server user =>
    rcases ite_none_right_eq_some.mp steps with ⟨_, ⟨⟩⟩
    exact ⟨inv.unused, inv.opened, inv.names⟩
  | acquireFails me server user =>
    cases steps
    exact ⟨inv.unused, inv.opened, inv.names⟩
  | borrow me server user =>
    rcases ite_none_right_eq_some.mp steps with ⟨waits, ⟨⟩⟩
    exact borrowConnection_described counted inv
  | open_ me c server user accepted =>
    rcases ite_none_right_eq_some.mp steps with ⟨has, opens⟩
    split at opens
    · cases opens
      exact inv
    · next closed =>
        cases opens
        apply inv.update (counted.not_free has)
        intro session open_
        cases accepted with
        | false => simp [OraclePooledConnection.open_, closed] at open_
        | true =>
          simp only [OraclePooledConnection.open_, closed] at open_
          cases open_
          exact ⟨rfl, rfl⟩
  | close me c =>
    rcases ite_none_right_eq_some.mp steps with ⟨has, ⟨⟩⟩
    exact inv.close (counted.not_free has)
  | release me c aStamp =>
    rcases ite_none_right_eq_some.mp steps with ⟨_, ⟨⟩⟩
    exact releaseConnection_described inv
  | checkClose timeouted =>
    cases steps
    exact checkClose_described counted inv timeouted

theorem run_described {last : ConnectionPool ι} {actions : List (PoolStep ι)}
    (runs : Runs.run step (init n) actions = some last) : Described last := by
  have keeps : ∀ (this : ConnectionPool ι) action after,
      (Placed n this ∧ Described this) → this.step action = some after →
      Placed n after ∧ Described after := fun _ _ _ inv steps =>
    ⟨step_placed inv.1 steps, step_described inv.1 inv.2 steps⟩
  exact (Runs.run_invariant_always keeps ⟨init_placed n, init_described n⟩ runs).2

/-- It is closed or open for the names exactly if the first of the free
sessions with the text of the names is for them. -/
theorem init_run_handOut_iff {n : Nat} {last : ConnectionPool ι} {actions : List (PoolStep ι)}
    (runs : Runs.run step (init n) actions = some last)
    {server user : Bytes} (hasServer : server ≠ []) (hasUser : user ≠ []) :
    (∀ connection ∈ last.handOut server user, connection.session = none ∨
      connection.session = some (server, user)) ↔
    ∀ session ∈ last.freeSessions.find? (sameText server user), session = (server, user) := by
  have inv := run_described runs
  rw [find?_freeSessions inv]
  cases first : last.fListOfConnections.openEntries.find? (matches_ (joined server user)) with
  | none =>
    apply iff_of_true
    · intro connection out
      exact .inl (handOut_of_none inv hasServer hasUser first out)
    · intro session none_
      cases none_
  | some entry =>
    rcases inv.opened entry (mem_of_find?_eq_some first) with ⟨session, open_, _⟩
    rw [handOut_of_some hasServer hasUser first, bind_some, open_]
    simp [open_]

/-- A connection for the server `d.a` and the user `b`, whose text is that of
the server `d` and the user `a.b`. -/
private def sharedText : List (PoolStep Nat) :=
  [.acquire 0 [100, 46, 97] [98], .borrow 0 [100, 46, 97] [98],
    .open_ 0 0 [100, 46, 97] [98] true, .release 0 0 [49]]

theorem init_run_handOut_iff_sharedText :
    ∃ last, Runs.run step (init 1) sharedText = some last ∧
      last.freeSessions = [([100, 46, 97], [98])] ∧
      ¬ ∀ connection ∈ last.handOut [100] [97, 46, 98], connection.session = none ∨
        connection.session = some ([100], [97, 46, 98]) := by
  obtain ⟨last, runs, free⟩ :
      ∃ last, Runs.run step (init 1) sharedText = some last ∧
        last.freeSessions = [([100, 46, 97], [98])] := ⟨_, rfl, rfl⟩
  refine ⟨last, runs, free, ?_⟩
  rw [init_run_handOut_iff runs (by decide) (by decide), free]
  decide

/-- The names get a connection that is open for other names. -/
theorem not_init_run_handOut :
    ¬ ∀ (n : Nat) (actions : List (PoolStep Nat)) (last : ConnectionPool Nat)
      (server user : Bytes),
      Runs.run step (init n) actions = some last →
      server ≠ [] → user ≠ [] →
      ∀ connection ∈ last.handOut server user, connection.session = none ∨
        connection.session = some (server, user) := by
  intro matching
  have wrong := matching 1 sharedText _ [100] [97, 46, 98] rfl (by decide) (by decide) _ rfl
  revert wrong
  decide

end Coast.ConnectionPool
