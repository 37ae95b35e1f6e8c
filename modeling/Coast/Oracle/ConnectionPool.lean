import Coast.Base.Bytes
import Coast.Library.Runs
import Coast.Mtfoundation.SystemAPI
import Mathlib.Data.List.Perm.Basic

/-!
# The pool of Oracle connections

A semaphore counts the connections that are not borrowed.  They are in one of
two lists: open ones by the time they were released, with the server and the
user they are open for, and unused ones.
-/

namespace Coast

/-- `session` is what the connection is open for; the names are those of the
last `Open`. -/
structure OraclePooledConnection where
  session : Option (Bytes × Bytes)
  fServer : Bytes
  fUser : Bytes
  deriving DecidableEq, Repr

namespace OraclePooledConnection

def create : OraclePooledConnection := ⟨none, [], []⟩

def isOpen (this : OraclePooledConnection) : Bool := this.session.isSome

def open_ (this : OraclePooledConnection) (strServer strUsername : Bytes)
    (accepted : Bool) : OraclePooledConnection :=
  { session :=
      if this.isOpen then this.session
      else if accepted then some (strServer, strUsername) else none
    fServer := strServer
    fUser := strUsername }

def close (this : OraclePooledConnection) : OraclePooledConnection := { this with session := none }

end OraclePooledConnection

/-- The slots `/Open` and `/Unused`: connections by their number, those in
`/Open` in entries by time stamp, with the text to find them by. -/
structure ConnectionList where
  fOpen : List (Bytes × List (Nat × Bytes))
  fUnused : List Nat
  deriving DecidableEq, Repr

namespace ConnectionList

def openEntries (this : ConnectionList) : List (Nat × Bytes) := this.fOpen.flatMap Prod.snd

def connections (this : ConnectionList) : List Nat := this.fUnused ++ this.openEntries.map Prod.fst

end ConnectionList

namespace ConnectionPool

def joined (server user : Bytes) : Bytes := server ++ ch '.' :: user

def strToLookup (server user : Bytes) : Bytes :=
  if 0 < server.length ∧ 0 < user.length then joined server user else server

def matches_ (strToLookup : Bytes) (roaConn : Nat × Bytes) : Bool :=
  strToLookup.length = 0 || isEqual strToLookup roaConn.2

/-- The index of the first entry with a match, and of the match in it. -/
def findOpen (strToLookup : Bytes) : List (Bytes × List (Nat × Bytes)) → Option (Nat × Nat)
  | [] => none
  | roaTSEntry :: rest =>
    match roaTSEntry.2.findIdx? (matches_ strToLookup) with
    | some j => some (0, j)
    | none => (findOpen strToLookup rest).map fun at_ => (at_.1 + 1, at_.2)

/-- `SlotCleaner::Operate`: an entry that is left empty is removed too. -/
def cleanOpen (fOpen : List (Bytes × List (Nat × Bytes))) (i j : Nat) :
    List (Bytes × List (Nat × Bytes)) :=
  let cleaned := fOpen.modify i fun entry => (entry.1, entry.2.eraseIdx j)
  if ((cleaned[i]?.map Prod.snd).getD []).isEmpty then cleaned.eraseIdx i
  else cleaned

/-- The first open connection with the text of the names, or any one for no
names, and the lists without it. -/
def intGetOpen (list : ConnectionList) (server user : Bytes) : Option (Nat × ConnectionList) := do
  let (i, j) ← findOpen (strToLookup server user) list.fOpen
  let entry ← list.fOpen[i]?
  let roaConn ← entry.2[j]?
  some (roaConn.1, { list with fOpen := cleanOpen list.fOpen i j })

/-- A connection, the lists without it, and whether it is to be closed. -/
def intBorrowConnection (list : ConnectionList) (server user : Bytes) :
    Option (Nat × ConnectionList × Bool) :=
  let found :=
    if server.length = 0 ∨ user.length = 0 then none
    else intGetOpen list server user
  match found with
  | some (pConnection, list) => some (pConnection, list, false)
  | none =>
    match list.fUnused with
    | pConnection :: fUnused =>
      some (pConnection, { list with fUnused := fUnused }, false)
    | [] =>
      (intGetOpen list [] []).map fun found => (found.1, found.2, true)

def appendOpen (stamp : Bytes) (anyToStore : Nat × Bytes) :
    List (Bytes × List (Nat × Bytes)) → List (Bytes × List (Nat × Bytes))
  | [] => [(stamp, [anyToStore])]
  | entry :: rest =>
    if entry.1 = stamp then (entry.1, entry.2 ++ [anyToStore]) :: rest
    else entry :: appendOpen stamp anyToStore rest

/-- An open connection goes to the entry of its time stamp, a closed one to the
unused ones. -/
def intReleaseConnection (list : ConnectionList) (pConnection : Nat)
    (connection : OraclePooledConnection) (aStamp : Bytes) : ConnectionList :=
  if connection.isOpen then
    { list with
      fOpen := appendOpen aStamp
        (pConnection, joined connection.fServer connection.fUser) list.fOpen }
  else { list with fUnused := list.fUnused ++ [pConnection] }

/-- The loop of `CheckCloseOpenedConnections`: what is left of `/Open`, and
the connections that are closed, in their order. -/
def closeTimeouted (timeouted : Bytes → Bool) :
    List (Bytes × List (Nat × Bytes)) → List (Bytes × List (Nat × Bytes)) × List Nat
  | [] => ([], [])
  | entry :: rest =>
    if timeouted entry.1 then
      let (left, closed) := closeTimeouted timeouted rest
      (left, entry.2.map Prod.fst ++ closed)
    else (entry :: rest, [])

end ConnectionPool

/-- The pool, and the clients that are past the semaphore: those that have not
got a connection yet, with the names they ask for, and those that have. -/
structure ConnectionPool (ι : Type) where
  connections : Nat → OraclePooledConnection
  fListOfConnections : ConnectionList
  fpResourcesSema : Nat
  acquired : List (ι × Bytes × Bytes)
  borrowed : List (ι × Nat)

/-- A locked section is one step.  Time stamps come from the clock. -/
inductive PoolStep (ι : Type) where
  | acquire (me : ι) (server user : Bytes)
  /-- The wait for the semaphore ends without a token, as when a signal
  interrupts it; `BorrowConnection` goes on. -/
  | acquireFails (me : ι) (server user : Bytes)
  | borrow (me : ι) (server user : Bytes)
  /-- `isOpen() || Open(...)`, by the client that has the connection. -/
  | open_ (me : ι) (pConnection : Nat) (server user : Bytes) (accepted : Bool)
  | close (me : ι) (pConnection : Nat)
  | release (me : ι) (pConnection : Nat) (aStamp : Bytes)
  | checkClose (timeouted : Bytes → Bool)

namespace ConnectionPool

open Function

variable {ι : Type}

/-- The pool after `Init`.  A semaphore that could not be made has no token. -/
def init (n : Nat) : ConnectionPool ι where
  connections _ := .create
  fListOfConnections := (List.range n).foldl
    (fun list pConnection =>
      intReleaseConnection list pConnection .create []) ⟨[], []⟩
  fpResourcesSema := (SystemAPI.createSema n).getD 0
  acquired := []
  borrowed := []

def update_ (this : ConnectionPool ι) (pConnection : Nat)
    (connection : OraclePooledConnection) : ConnectionPool ι :=
  { this with connections := update this.connections pConnection connection }

variable [DecidableEq ι]

/-- The locked section of `BorrowConnection`. -/
def borrowConnection (this : ConnectionPool ι) (me : ι) (server user : Bytes) : ConnectionPool ι :=
  let this := { this with acquired := this.acquired.erase (me, server, user) }
  match intBorrowConnection this.fListOfConnections server user with
  | none => this
  | some (pConnection, list, mustClose) =>
    let this :=
      { this with
        fListOfConnections := list
        borrowed := (me, pConnection) :: this.borrowed }
    if mustClose then
      this.update_ pConnection (this.connections pConnection).close
    else this

def releaseConnection (this : ConnectionPool ι) (me : ι) (pConnection : Nat)
    (aStamp : Bytes) : ConnectionPool ι :=
  { this with
    fListOfConnections := intReleaseConnection this.fListOfConnections
      pConnection (this.connections pConnection) aStamp
    fpResourcesSema := this.fpResourcesSema + 1
    borrowed := this.borrowed.erase (me, pConnection) }

/-- What is open and timed out is closed and goes to the unused. -/
def checkCloseOpenedConnections (this : ConnectionPool ι)
    (timeouted : Bytes → Bool) : ConnectionPool ι :=
  let (left, closed) := closeTimeouted timeouted this.fListOfConnections.fOpen
  { this with
    connections := fun c =>
      if c ∈ closed then (this.connections c).close else this.connections c
    fListOfConnections := ⟨left, this.fListOfConnections.fUnused ++ closed⟩ }

/-- One locked section, or the wait for the semaphore, of some client. -/
def step (this : ConnectionPool ι) : PoolStep ι → Option (ConnectionPool ι)
  | .acquire me server user =>
    if 0 < this.fpResourcesSema then
      some { this with
        fpResourcesSema := this.fpResourcesSema - 1
        acquired := (me, server, user) :: this.acquired }
    else none
  | .acquireFails me server user =>
    some { this with acquired := (me, server, user) :: this.acquired }
  | .borrow me server user =>
    if (me, server, user) ∈ this.acquired then
      some (this.borrowConnection me server user)
    else none
  | .open_ me pConnection server user accepted =>
    if (me, pConnection) ∈ this.borrowed then
      if (this.connections pConnection).isOpen then some this
      else some (this.update_ pConnection
        ((this.connections pConnection).open_ server user accepted))
    else none
  | .close me pConnection =>
    if (me, pConnection) ∈ this.borrowed then
      some (this.update_ pConnection (this.connections pConnection).close)
    else none
  | .release me pConnection aStamp =>
    if (me, pConnection) ∈ this.borrowed then
      some (this.releaseConnection me pConnection aStamp)
    else none
  | .checkClose timeouted =>
    some (this.checkCloseOpenedConnections timeouted)

end ConnectionPool

end Coast
