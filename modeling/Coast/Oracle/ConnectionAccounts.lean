import Coast.Oracle.ConnectionPool
import Mathlib.Data.List.Count
import Mathlib.Data.List.Perm.Subperm

/-!
# Where the connections of a pool are

Each connection is borrowed, unused or in one entry of `/Open`.  As the
semaphore counts the connections that are in the lists, a client with a token
finds one; `BorrowConnection` goes on without one when the wait fails.
-/

namespace Coast.ConnectionPool

open Function List Option

variable {ι : Type}

/-! ## The first match -/

@[simp] theorem cleanOpen_succ (entry : Bytes × List (Nat × Bytes))
    (fOpen : List (Bytes × List (Nat × Bytes))) (i j : Nat) :
    cleanOpen (entry :: fOpen) (i + 1) j = entry :: cleanOpen fOpen i j := by
  simp only [cleanOpen, modify_succ_cons, getElem?_cons_succ, eraseIdx_cons_succ]
  exact (apply_ite (List.cons entry) _ _ _).symm

theorem cleanOpen_zero_flatMap (entry : Bytes × List (Nat × Bytes))
    (fOpen : List (Bytes × List (Nat × Bytes))) (j : Nat) :
    (cleanOpen (entry :: fOpen) 0 j).flatMap Prod.snd =
      entry.2.eraseIdx j ++ fOpen.flatMap Prod.snd := by
  have cleaned : cleanOpen (entry :: fOpen) 0 j = if (entry.2.eraseIdx j).isEmpty then fOpen
      else (entry.1, entry.2.eraseIdx j) :: fOpen := rfl
  rw [cleaned]
  cases left : entry.2.eraseIdx j with
  | nil => rfl
  | cons first rest => exact flatMap_cons

theorem findOpen_none {text : Bytes} {fOpen : List (Bytes × List (Nat × Bytes))}
    (none_ : (fOpen.flatMap Prod.snd).find? (matches_ text) = none) :
    findOpen text fOpen = none := by
  induction fOpen with
  | nil => rfl
  | cons entry fOpen ih =>
    rw [flatMap_cons, find?_append, or_eq_none_iff] at none_
    have notHere : entry.2.findIdx? (matches_ text) = none := by
      simpa using none_.1
    simp only [findOpen, notHere, ih none_.2, map_none]

theorem findOpen_some {text : Bytes} {found : Nat × Bytes}
    {fOpen : List (Bytes × List (Nat × Bytes))}
    (first : (fOpen.flatMap Prod.snd).find? (matches_ text) = some found) :
    ∃ i j entry, findOpen text fOpen = some (i, j) ∧
      fOpen[i]? = some entry ∧ entry.2[j]? = some found ∧
      (cleanOpen fOpen i j).flatMap Prod.snd = (fOpen.flatMap Prod.snd).eraseP (matches_ text) := by
  induction fOpen with
  | nil => cases first
  | cons entry fOpen ih =>
    rw [flatMap_cons, find?_append] at first
    cases here : entry.2.findIdx? (matches_ text) with
    | some j =>
      have at_ : entry.2.find? (matches_ text) = entry.2[j]? := by
        rw [find?_eq_bind_findIdx?_getElem?, here]
        rfl
      rcases findIdx?_eq_some_iff_getElem.mp here with ⟨bound, found_, _⟩
      rw [at_, getElem?_eq_getElem bound, some_or] at first
      refine ⟨0, j, entry, ?_, rfl, ?_, ?_⟩
      · simp only [findOpen, here]
      · rw [getElem?_eq_getElem bound, first]
      · rw [cleanOpen_zero_flatMap, flatMap_cons, eraseP_append_left found_ _ (getElem_mem bound),
          eraseP_eq_eraseIdx, here]
    | none =>
      have notHere : ∀ x ∈ entry.2, matches_ text x = false := by
        simpa using findIdx?_eq_none_iff.mp here
      have noneHere : entry.2.find? (matches_ text) = none := by
        simpa using notHere
      rw [noneHere, none_or] at first
      rcases ih first with ⟨i, j, at_, finds, atI, atJ, cleaned⟩
      refine ⟨i + 1, j, at_, ?_, atI, atJ, ?_⟩
      · simp only [findOpen, here, finds, map_some]
      · rw [cleanOpen_succ, flatMap_cons, cleaned, flatMap_cons,
          eraseP_append_right _ (by simpa using notHere)]

variable {list : ConnectionList} {server user : Bytes}

theorem intGetOpen_none (none_ : list.openEntries.find? (matches_ (strToLookup server user)) =
      none) : intGetOpen list server user = none := by
  rw [intGetOpen, findOpen_none none_]
  rfl

theorem intGetOpen_some {found : Nat × Bytes}
    (first : list.openEntries.find? (matches_ (strToLookup server user)) = some found) :
    ∃ after, intGetOpen list server user = some (found.1, after) ∧ after.fUnused = list.fUnused ∧
      after.openEntries = list.openEntries.eraseP (matches_ (strToLookup server user)) := by
  rcases findOpen_some first with ⟨i, j, entry, finds, atI, atJ, cleaned⟩
  refine ⟨{ list with fOpen := cleanOpen list.fOpen i j }, ?_, rfl, cleaned⟩
  simp [intGetOpen, finds, atI, atJ]

variable {after : ConnectionList} {c : Nat}

theorem intGetOpen_cases (gets : intGetOpen list server user = some (c, after)) :
    ∃ text, list.openEntries.find? (matches_ (strToLookup server user)) = some (c, text) ∧
      after.fUnused = list.fUnused ∧
      after.openEntries = list.openEntries.eraseP (matches_ (strToLookup server user)) := by
  cases first : list.openEntries.find? (matches_ (strToLookup server user)) with
  | none =>
    rw [intGetOpen_none first] at gets
    cases gets
  | some found =>
    rcases intGetOpen_some first with ⟨other, alsoGets, same, erased⟩
    rw [gets] at alsoGets
    cases alsoGets
    exact ⟨found.2, rfl, same, erased⟩

theorem strToLookup_of_names (hasServer : server ≠ [])
    (hasUser : user ≠ []) : strToLookup server user = joined server user :=
  if_pos ⟨length_pos_of_ne_nil hasServer, length_pos_of_ne_nil hasUser⟩

/-- An open connection for the names, else the first unused one, else any
open one, which has to be closed. -/
theorem intBorrowConnection_cases {mustClose : Bool}
    (gets : intBorrowConnection list server user = some (c, after, mustClose)) :
    (server ≠ [] ∧ user ≠ [] ∧ intGetOpen list server user = some (c, after) ∧ mustClose = false) ∨
    (list.fUnused = c :: after.fUnused ∧ after.fOpen = list.fOpen ∧ mustClose = false) ∨
    (intGetOpen list [] [] = some (c, after) ∧ mustClose = true) := by
  have unusedOrAny (gets : intBorrowConnection list [] [] = some (c, after, mustClose)) :
      (list.fUnused = c :: after.fUnused ∧ after.fOpen = list.fOpen ∧ mustClose = false) ∨
      (intGetOpen list [] [] = some (c, after) ∧ mustClose = true) := by
    rw [intBorrowConnection, if_pos (.inl rfl)] at gets
    cases unused : list.fUnused with
    | nil =>
      rw [unused] at gets
      rcases map_eq_some_iff.mp gets with ⟨any, found, same⟩
      cases same
      exact .inr ⟨found, rfl⟩
    | cons first rest =>
      rw [unused] at gets
      cases gets
      exact .inl ⟨rfl, rfl, rfl⟩
  have noNames' := intBorrowConnection.eq_1 list [] []
  rw [if_pos (.inl rfl)] at noNames'
  rw [intBorrowConnection] at gets
  by_cases noNames : server.length = 0 ∨ user.length = 0
  · rw [if_pos noNames] at gets
    exact .inr (unusedOrAny (noNames'.trans gets))
  · rw [if_neg noNames] at gets
    cases open_ : intGetOpen list server user with
    | none =>
      rw [open_] at gets
      exact .inr (unusedOrAny (noNames'.trans gets))
    | some found =>
      rw [open_] at gets
      cases gets
      rw [length_eq_zero_iff, length_eq_zero_iff, not_or] at noNames
      exact .inl ⟨noNames.1, noNames.2, rfl, rfl⟩

/-- `before` is `after` and one more connection. -/
structure Takes (before : ConnectionList) (c : Nat) (after : ConnectionList) : Prop where
  connections : before.connections.Perm (c :: after.connections)
  unused : after.fUnused ⊆ before.fUnused
  opened : after.openEntries ⊆ before.openEntries

theorem takes_of_intGetOpen (gets : intGetOpen list server user = some (c, after)) :
    Takes list c after := by
  rcases intGetOpen_cases gets with ⟨text, first, unused, erased⟩
  rcases find?_eq_some_iff_append.mp first with ⟨match_, front, back, split_, none_⟩
  have left : after.openEntries = front ++ back := by
    rw [erased, split_, eraseP_append_right _ (by simpa using none_), eraseP_cons_of_pos match_]
  constructor
  · rw [ConnectionList.connections, ConnectionList.connections, left, split_,
      unused, map_append, map_append, map_cons]
    exact (perm_middle.append_left _).trans perm_middle
  · rw [unused]
    exact List.Subset.refl _
  · rw [erased]
    exact eraseP_subset

theorem takes_of_intBorrowConnection {mustClose : Bool}
    (gets : intBorrowConnection list server user =
      some (c, after, mustClose)) : Takes list c after := by
  rcases intBorrowConnection_cases gets with ⟨_, _, gets, _⟩ | ⟨unused, same, _⟩ | ⟨gets, _⟩
  · exact takes_of_intGetOpen gets
  · have sameEntries : after.openEntries = list.openEntries := by
      rw [ConnectionList.openEntries, same]
      rfl
    constructor
    · rw [ConnectionList.connections, ConnectionList.connections, unused, sameEntries, cons_append]
    · rw [unused]
      exact subset_cons_self c after.fUnused
    · rw [sameEntries]
      exact List.Subset.refl _
  · exact takes_of_intGetOpen gets

theorem intBorrowConnection_isSome (some_ : list.connections ≠ []) (server user : Bytes) :
    (intBorrowConnection list server user).isSome := by
  have anyOpen : list.fUnused = [] → (intGetOpen list [] []).isSome := by
    intro unused
    cases entries : list.openEntries with
    | nil =>
      rw [ConnectionList.connections, unused, entries] at some_
      exact absurd rfl some_
    | cons entry rest =>
      have first : list.openEntries.find? (matches_ (strToLookup [] [])) = some entry := by
        rw [entries, find?_cons_of_pos rfl]
      rcases intGetOpen_some first with ⟨after, gets, _⟩
      rw [gets]
      rfl
  rw [intBorrowConnection]
  split
  · rfl
  · cases unused : list.fUnused with
    | nil => simpa using anyOpen unused
    | cons first rest => rfl

theorem appendOpen_flatMap (stamp : Bytes) (anyToStore : Nat × Bytes)
    (fOpen : List (Bytes × List (Nat × Bytes))) :
    ((appendOpen stamp anyToStore fOpen).flatMap Prod.snd).Perm
      (anyToStore :: fOpen.flatMap Prod.snd) := by
  induction fOpen with
  | nil => exact .refl _
  | cons entry fOpen ih =>
    rw [appendOpen]
    split
    · rw [flatMap_cons, flatMap_cons, append_assoc]
      exact perm_middle
    · rw [flatMap_cons, flatMap_cons]
      exact (ih.append_left _).trans perm_middle

theorem connections_intReleaseConnection (list : ConnectionList) (c : Nat)
    (connection : OraclePooledConnection) (aStamp : Bytes) :
    (intReleaseConnection list c connection aStamp).connections.Perm (c :: list.connections) := by
  rw [intReleaseConnection]
  split
  · have stored := (appendOpen_flatMap aStamp
      (c, joined connection.fServer connection.fUser) list.fOpen).map Prod.fst
    exact (stored.append_left _).trans perm_middle
  · rw [ConnectionList.connections, ConnectionList.connections, append_assoc]
    exact perm_middle

theorem closeTimeouted_perm (timeouted : Bytes → Bool) (fOpen : List (Bytes × List (Nat × Bytes))) :
    ((closeTimeouted timeouted fOpen).2 ++
        ((closeTimeouted timeouted fOpen).1.flatMap Prod.snd).map Prod.fst).Perm
      ((fOpen.flatMap Prod.snd).map Prod.fst) := by
  induction fOpen with
  | nil => exact .refl _
  | cons entry fOpen ih =>
    rw [closeTimeouted]
    split
    · rw [flatMap_cons, map_append, append_assoc]
      exact ih.append_left _
    · exact .refl _

def places (this : ConnectionPool ι) : List Nat :=
  this.borrowed.map Prod.snd ++ this.fListOfConnections.connections

/-- All connections are somewhere, each of them once. -/
structure Placed (n : Nat) (this : ConnectionPool ι) : Prop where
  places : this.places.Perm (List.range n)

/-- The semaphore counts the connections that nobody has a claim to. -/
structure Accounted (n : Nat) (this : ConnectionPool ι) : Prop extends Placed n this where
  tokens : this.fpResourcesSema + this.borrowed.length + this.acquired.length = n

variable {n : Nat} {this : ConnectionPool ι}

theorem Placed.nodup (inv : Placed n this) : this.places.Nodup :=
  inv.places.nodup_iff.mpr nodup_range

theorem Accounted.length_connections
    (inv : Accounted n this) : this.fListOfConnections.connections.length =
      this.fpResourcesSema + this.acquired.length := by
  have length := inv.places.length_eq
  rw [ConnectionPool.places, length_append, length_map, length_range] at length
  have tokens := inv.tokens
  omega

theorem Accounted.connections_ne_nil
    (inv : Accounted n this) {client : ι × Bytes × Bytes} (waits : client ∈ this.acquired) :
    this.fListOfConnections.connections ≠ [] := by
  have length := inv.length_connections
  have some_ := length_pos_of_mem waits
  intro none_
  rw [none_, length_nil] at length
  omega

theorem connections_init (n : Nat) : (init (ι := ι) n).fListOfConnections = ⟨[], List.range n⟩ := by
  induction n with
  | zero => rfl
  | succ n ih =>
    have last : (init (ι := ι) (n + 1)).fListOfConnections =
        intReleaseConnection (init (ι := ι) n).fListOfConnections n .create [] := by
      simp only [init, range_succ, foldl_append, foldl_cons, foldl_nil]
    rw [last, ih, range_succ]
    rfl

theorem init_placed (n : Nat) : Placed n (init (ι := ι) n) := by
  constructor
  rw [places, connections_init]
  simp [init, ConnectionList.connections, ConnectionList.openEntries]

theorem init_accounted {n : Nat} (small : n < 2 ^ 31) : Accounted n (init (ι := ι) n) := by
  refine ⟨init_placed n, ?_⟩
  simp only [init, SystemAPI.createSema_of_lt small, getD_some, length_nil, Nat.add_zero]

theorem Placed.count (inv : Placed n this) (c : Nat) :
    (this.borrowed.map Prod.snd).count c + this.fListOfConnections.fUnused.count c +
        (this.fListOfConnections.openEntries.map Prod.fst).count c =
      if c < n then 1 else 0 := by
  have once := inv.places.count_eq c
  rw [ConnectionPool.places, ConnectionList.connections, count_append,
    count_append, ← Nat.add_assoc] at once
  rw [once, count_range]

/-! ## The steps keep the accounts -/

theorem checkClose_placed (inv : Placed n this) (timeouted : Bytes → Bool) :
    Placed n (this.checkCloseOpenedConnections timeouted) := by
  constructor
  have same := closeTimeouted_perm timeouted this.fListOfConnections.fOpen
  have moved := (same.append_left
    this.fListOfConnections.fUnused).append_left
    (this.borrowed.map Prod.snd)
  rw [← append_assoc this.fListOfConnections.fUnused] at moved
  exact moved.trans inv.places

variable [DecidableEq ι]

/-- A client that finds no connection only leaves the ones that wait. -/
theorem borrowConnection_cases (this : ConnectionPool ι) (me : ι) (server user : Bytes) :
    (intBorrowConnection this.fListOfConnections server user = none ∧
      this.borrowConnection me server user =
        { this with acquired := this.acquired.erase (me, server, user) }) ∨
    ∃ c list mustClose,
      intBorrowConnection this.fListOfConnections server user = some (c, list, mustClose) ∧
      Takes this.fListOfConnections c list ∧
      this.borrowConnection me server user =
        { this with
          connections := if mustClose then
            update this.connections c (this.connections c).close
            else this.connections
          fListOfConnections := list
          acquired := this.acquired.erase (me, server, user)
          borrowed := (me, c) :: this.borrowed } := by
  cases gets : intBorrowConnection this.fListOfConnections server user with
  | none =>
    left
    rw [borrowConnection, gets]
    exact ⟨rfl, rfl⟩
  | some found =>
    rcases found with ⟨c, list, mustClose⟩
    right
    refine ⟨c, list, mustClose, rfl, takes_of_intBorrowConnection gets, ?_⟩
    rw [borrowConnection, gets]
    cases mustClose <;> rfl

theorem borrowConnection_placed (inv : Placed n this) (me : ι) (server user : Bytes) :
    Placed n (this.borrowConnection me server user) := by
  rcases borrowConnection_cases this me server user with
    ⟨-, borrows⟩ | ⟨c, list, mustClose, -, takes, borrows⟩
  · rw [borrows]
    exact ⟨inv.places⟩
  · rw [borrows]
    constructor
    rw [places, map_cons, cons_append]
    have moved := (takes.connections.append_left
      (this.borrowed.map Prod.snd)).trans perm_middle
    exact moved.symm.trans inv.places

theorem releaseConnection_placed {me : ι} {aStamp : Bytes} (inv : Placed n this)
    (has : (me, c) ∈ this.borrowed) : Placed n (this.releaseConnection me c aStamp) := by
  have given := (perm_cons_erase has).map Prod.snd
  rw [map_cons] at given
  constructor
  have stored := connections_intReleaseConnection this.fListOfConnections c
    (this.connections c) aStamp
  have moved := (stored.append_left
    ((this.borrowed.erase (me, c)).map Prod.snd)).trans
    perm_middle
  exact (moved.trans (given.symm.append_right _)).trans inv.places

theorem step_placed {after : ConnectionPool ι} {action : PoolStep ι} (inv : Placed n this)
    (steps : this.step action = some after) : Placed n after := by
  cases action with
  | acquire me server user =>
    rcases ite_none_right_eq_some.mp steps with ⟨free, ⟨⟩⟩
    exact ⟨inv.places⟩
  | acquireFails me server user =>
    cases steps
    exact ⟨inv.places⟩
  | borrow me server user =>
    rcases ite_none_right_eq_some.mp steps with ⟨waits, ⟨⟩⟩
    exact borrowConnection_placed inv me server user
  | open_ me c server user accepted =>
    rcases ite_none_right_eq_some.mp steps with ⟨has, opens⟩
    split at opens
    · cases opens
      exact inv
    · cases opens
      exact ⟨inv.places⟩
  | close me c =>
    rcases ite_none_right_eq_some.mp steps with ⟨has, ⟨⟩⟩
    exact ⟨inv.places⟩
  | release me c aStamp =>
    rcases ite_none_right_eq_some.mp steps with ⟨has, ⟨⟩⟩
    exact releaseConnection_placed inv has
  | checkClose timeouted =>
    cases steps
    exact checkClose_placed inv timeouted

/-- The wait for the semaphore takes a token. -/
def TakesToken (_ : ConnectionPool ι) : PoolStep ι → Prop
  | .acquireFails .. => False
  | _ => True

theorem borrowConnection_tokens {me : ι} (inv : Accounted n this)
    (waits : (me, server, user) ∈ this.acquired) :
    (this.borrowConnection me server user).fpResourcesSema +
      (this.borrowConnection me server user).borrowed.length +
      (this.borrowConnection me server user).acquired.length = n := by
  have tokens := inv.tokens
  have one := length_erase_of_mem waits
  have some_ := length_pos_of_mem waits
  rcases borrowConnection_cases this me server user with
    ⟨none_, -⟩ | ⟨c, list, mustClose, -, -, borrows⟩
  · have gets := intBorrowConnection_isSome (inv.connections_ne_nil waits) server user
    rw [none_] at gets
    cases gets
  · rw [borrows]
    simp only [length_cons]
    omega

theorem step_accounted (this : ConnectionPool ι) (action : PoolStep ι)
    (after : ConnectionPool ι) (inv : Accounted n this) (takes : TakesToken this action)
    (steps : this.step action = some after) : Accounted n after := by
  refine ⟨step_placed inv.toPlaced steps, ?_⟩
  have tokens := inv.tokens
  cases action with
  | acquire me server user =>
    rcases ite_none_right_eq_some.mp steps with ⟨free, ⟨⟩⟩
    simp only [length_cons]
    omega
  | acquireFails me server user => exact takes.elim
  | borrow me server user =>
    rcases ite_none_right_eq_some.mp steps with ⟨waits, ⟨⟩⟩
    exact borrowConnection_tokens inv waits
  | open_ me c server user accepted =>
    rcases ite_none_right_eq_some.mp steps with ⟨has, opens⟩
    split at opens
    · cases opens
      exact tokens
    · cases opens
      exact tokens
  | close me c =>
    rcases ite_none_right_eq_some.mp steps with ⟨has, ⟨⟩⟩
    exact tokens
  | release me c aStamp =>
    rcases ite_none_right_eq_some.mp steps with ⟨has, ⟨⟩⟩
    have one := length_erase_of_mem has
    have some_ := length_pos_of_mem has
    simp only [releaseConnection]
    omega
  | checkClose timeouted =>
    cases steps
    exact tokens

/-- Each of the connections is borrowed, unused or in an entry of `/Open`, and
that once; with the tokens of the semaphore the clients make up their number,
and a client past the semaphore gets a connection. -/
structure Conserved (n : Nat) (this : ConnectionPool ι) : Prop where
  once : ∀ c, (this.borrowed.map Prod.snd).count c + this.fListOfConnections.fUnused.count c +
      (this.fListOfConnections.openEntries.map Prod.fst).count c =
    if c < n then 1 else 0
  tokens : this.fpResourcesSema + this.borrowed.length + this.acquired.length = n
  gets : ∀ me server user, (me, server, user) ∈ this.acquired →
    (intBorrowConnection this.fListOfConnections server user).isSome

omit [DecidableEq ι] in
theorem Accounted.conserved (inv : Accounted n this) : Conserved n this :=
  ⟨inv.count, inv.tokens, fun _ server user waits =>
    intBorrowConnection_isSome (inv.connections_ne_nil waits) server user⟩

theorem step_breaks (this : ConnectionPool ι) (action : PoolStep ι) (after : ConnectionPool ι)
    (inv : Accounted n this) (misses : ¬ TakesToken this action)
    (steps : this.step action = some after) : ¬ Conserved n after := by
  intro conserved
  cases action with
  | acquireFails me server user =>
    cases steps
    have tokens := inv.tokens
    have more := conserved.tokens
    simp only [length_cons] at more
    omega
  | _ => exact misses trivial

omit [DecidableEq ι] in
theorem lt_of_conserved (conserved : Conserved n (init (ι := ι) n)) : n < 2 ^ 31 := by
  have tokens := conserved.tokens
  simp only [init, SystemAPI.createSema, length_nil, Nat.add_zero] at tokens
  split at tokens
  · simp only [getD_some] at tokens
    omega
  · simp only [getD_none] at tokens
    omega

/-- In a run all states are so exactly if the semaphore can count the
connections and each wait for it takes a token. -/
theorem init_always_conserved_iff {n : Nat} {last : ConnectionPool ι} {actions : List (PoolStep ι)}
    (runs : Runs.run step (init n) actions = some last) :
    Runs.Always step (Conserved n) (init n) actions ↔
      n < 2 ^ 31 ∧ Runs.Along step TakesToken (init n) actions := by
  have iff := fun small : n < 2 ^ 31 => Runs.always_iff_along step_accounted
    (fun _ inv => Accounted.conserved inv) step_breaks (init_accounted small) runs
  constructor
  · intro always
    have small := lt_of_conserved always.head
    exact ⟨small, (iff small).mp always⟩
  · rintro ⟨small, along⟩
    exact (iff small).mpr along

/-- Two clients; the one that comes last gets the connection of the other,
closed. -/
private def reuse : List (PoolStep Nat) :=
  [.acquire 0 [97] [98], .borrow 0 [97] [98], .open_ 0 0 [97] [98] true,
    .release 0 0 [49], .acquire 1 [97] [99], .borrow 1 [97] [99],
    .release 1 0 [50], .checkClose fun _ => true, .acquire 0 [97] [98]]

theorem init_always_conserved_iff_reuse :
    ∃ last, Runs.run step (init 1) reuse = some last ∧
      Runs.Always step (Conserved 1) (init 1) reuse := by
  obtain ⟨last, runs⟩ : ∃ last, Runs.run step (init 1) reuse = some last := ⟨_, rfl⟩
  refine ⟨last, runs, (init_always_conserved_iff runs).mpr ⟨by decide, ?_⟩⟩
  apply Runs.Along.of_mem
  simp [reuse, TakesToken]

/-- The second client does not get past the semaphore with a token. -/
private def interrupted : List (PoolStep Nat) :=
  [.acquire 0 [97] [98], .borrow 0 [97] [98], .acquireFails 1 [97] [98]]

/-- It finds no connection. -/
theorem not_init_always_conserved :
    ¬ ∀ (n : Nat) (actions : List (PoolStep Nat)) (last : ConnectionPool Nat),
      Runs.run step (init n) actions = some last → Conserved n last := by
  intro conserved
  have gets := (conserved 1 interrupted _ rfl).gets 1 [97] [98] (mem_singleton_self _)
  revert gets
  decide

end Coast.ConnectionPool
