import Coast.Base.Bytes
import Coast.Library.Runs

/-!
# Streams on sockets and pipes

`SocketStreamBuf` and `PipeStreamBuf` collect what is written and hand it over
to a descriptor.  What the descriptor answers comes from outside; a call that
gets no more answers has not returned.
-/

namespace Coast

inductive SelectAnswer where
  | ready
  | timeout
  | failed
  deriving DecidableEq, Repr

/-- What `send` or `write` does: it accepts at least one byte and at most what
is left, or none.  For a pipe `hadTimeout` is the result of the last select,
which may have been one for reading. -/
inductive WriteAnswer where
  | accepted (bytes : Nat)
  | interrupted
  | failed (hadTimeout : Bool)
  deriving DecidableEq, Repr

/-- What the system answers to a call. -/
inductive DescriptorAnswer where
  | select (answer : SelectAnswer)
  | write (answer : WriteAnswer)
  deriving DecidableEq, Repr

/-- The error state of an `iostream`. -/
structure IosState where
  eofbit : Bool
  failbit : Bool
  badbit : Bool
  deriving DecidableEq, Repr

namespace IosState

def goodbit : IosState := ⟨false, false, false⟩

def good (this : IosState) : Bool := !this.eofbit && !this.failbit && !this.badbit

end IosState

/-- What `DoWrite` has done: how much it sent, the state that it leaves the
stream in, and what it returned, unless it is still waiting. -/
structure Written where
  bytesSent : Nat
  rdstate : IosState
  result : Option Int
  deriving DecidableEq, Repr

namespace Written

def eof : Int := -1

def returns (bytesSent : Nat) (rdstate : IosState) : Written :=
  ⟨bytesSent, rdstate, some (if rdstate.good then bytesSent else eof)⟩

def waits (bytesSent : Nat) (rdstate : IosState) : Written := ⟨bytesSent, rdstate, none⟩

end Written

/-- The loop of `DoWrite`: how much has been sent and the state of the stream.
In the `inner` loop a socket sends and an interrupted pipe asks whether it can
write again. -/
structure WriteLoop where
  bytesSent : Nat
  inner : Bool
  rdstate : IosState
  deriving DecidableEq, Repr

namespace WriteLoop

def failbit : IosState := ⟨false, true, false⟩

def badbit : IosState := ⟨false, false, true⟩

def ends (len : Nat) (this : WriteLoop) : Bool :=
  !this.inner && (len ≤ this.bytesSent || !this.rdstate.good)

def accept (len bytes : Nat) (this : WriteLoop) : WriteLoop :=
  { this with
    bytesSent := this.bytesSent + min (max 1 bytes) (len - this.bytesSent)
    inner := false }

/-- The loop of `DoWrite` over the answers that it gets. -/
def run (turn : Nat → WriteLoop → DescriptorAnswer → WriteLoop) (len : Nat) :
    WriteLoop → List DescriptorAnswer → Written
  | this, [] =>
    if this.ends len then .returns this.bytesSent this.rdstate
    else .waits this.bytesSent this.rdstate
  | this, answer :: answers =>
    if this.ends len then .returns this.bytesSent this.rdstate
    else run turn len (turn len this answer) answers

end WriteLoop

open WriteLoop

namespace SocketStreamBuf

def turn (len : Nat) (this : WriteLoop) : DescriptorAnswer → WriteLoop
  | .select answer =>
    if this.inner then this
    else
      match answer with
      | .ready => { this with inner := true }
      | .timeout => { this with rdstate := failbit }
      | .failed => { this with rdstate := badbit }
  | .write answer =>
    if this.inner then
      match answer with
      | .interrupted => this
      | .accepted bytes => this.accept len bytes
      | .failed _ => { this with inner := false, rdstate := badbit }
    else this

def doWrite (len : Nat) (rdstate : IosState) (answers : List DescriptorAnswer) : Written :=
  run turn len ⟨0, false, rdstate⟩ answers

end SocketStreamBuf

namespace PipeStreamBuf

def turn (len : Nat) (this : WriteLoop) : DescriptorAnswer → WriteLoop
  | .write answer =>
    if this.inner then this
    else
      match answer with
      | .interrupted => { this with inner := true }
      | .accepted bytes => this.accept len bytes
      | .failed hadTimeout =>
        { this with rdstate := if hadTimeout then failbit else badbit }
  | .select answer =>
    if this.inner then
      match answer with
      | .ready => { this with inner := false }
      | .timeout => { this with inner := false, rdstate := failbit }
      | .failed => { this with inner := false, rdstate := badbit }
    else this

/-- `wfd` tells whether the pipe is open for writing. -/
def doWrite (wfd : Bool) (len : Nat) (rdstate : IosState)
    (answers : List DescriptorAnswer) : Written :=
  if wfd then run turn len ⟨0, false, rdstate⟩ answers
  else .returns 0 ⟨true, true, true⟩

end PipeStreamBuf

inductive DescriptorKind where
  | socket
  | pipe
  deriving DecidableEq, Repr

/-- A stream buffer on a socket or a pipe, and its stream.  `put` is the put
area from `pbase()` to `pptr()`, if there is one; `wfd` tells whether the
descriptor can be written to at all.

`written` are the characters whose writing succeeded, `handed` the bytes that
the descriptor has accepted, `accepted` is how many of the put area it has, and
`flushed` says that the last call was a flush that reported success.  A call
that waits for the descriptor leaves `waiting`. -/
structure DescriptorStreamBuf where
  capacity : Nat
  put : Option Bytes
  wfd : Bool
  rdstate : IosState
  written : Bytes
  handed : Bytes
  accepted : Nat
  flushed : Bool
  waiting : Bool
  deriving DecidableEq, Repr

namespace DescriptorStreamBuf

def count (this : DescriptorStreamBuf) : Nat := (this.put.getD []).length

def create (capacity : Nat) (wfd : Bool) : DescriptorStreamBuf :=
  ⟨capacity, none, wfd, .goodbit, [], [], 0, false, false⟩

variable (kind : DescriptorKind)

def doWrite (this : DescriptorStreamBuf) (answers : List DescriptorAnswer) : Written :=
  match kind with
  | .socket => SocketStreamBuf.doWrite this.count this.rdstate answers
  | .pipe => PipeStreamBuf.doWrite this.wfd this.count this.rdstate answers

def sends (this : DescriptorStreamBuf) (w : Written) : DescriptorStreamBuf :=
  { this with
    handed := this.handed ++ (this.put.getD []).take w.bytesSent
    accepted := this.accepted + w.bytesSent
    rdstate := w.rdstate
    waiting := w.result.isNone }

def setp (this : DescriptorStreamBuf) : DescriptorStreamBuf :=
  { this with put := some [], accepted := 0 }

/-- The put area is written; what was not taken stays there. -/
def sync (this : DescriptorStreamBuf) (answers : List DescriptorAnswer) :
    DescriptorStreamBuf × Bool :=
  if 0 < this.count then
    let w := this.doWrite kind answers
    let this := this.sends w
    match w.result with
    | none => (this, false)
    | some result => if result = Written.eof then (this, false) else (this.setp, true)
  else if this.put.isSome then (this.setp, true)
  else (this, true)

def store (this : DescriptorStreamBuf) (c : Byte) : DescriptorStreamBuf :=
  { this with
    put := some (this.put.getD [] ++ [c])
    written := this.written ++ [c] }

/-- Room is made for one character, by writing what there is. -/
def overflow (this : DescriptorStreamBuf) (c : Byte)
    (answers : List DescriptorAnswer) : DescriptorStreamBuf :=
  match this.put with
  | none => if 0 < this.capacity then this.setp.store c else this.setp
  | some _ =>
    match this.sync kind answers with
    | (this, false) => this
    | (this, true) =>
      if 0 < this.capacity then this.setp.store c else this.setp

def sputc (this : DescriptorStreamBuf) (c : Byte)
    (answers : List DescriptorAnswer) : DescriptorStreamBuf :=
  if this.put.isSome ∧ this.count < this.capacity then this.store c
  else this.overflow kind c answers

/-- `underflow` of an empty get area, as far as the put area is concerned. -/
def underflow (this : DescriptorStreamBuf) (answers : List DescriptorAnswer) :
    DescriptorStreamBuf :=
  match kind with
  | .socket => if 0 < this.count then (this.sync kind answers).1 else this
  | .pipe => this

end DescriptorStreamBuf

/-- What is done with the stream, with the answers that the descriptor gives
meanwhile.  The state of the stream can be changed by its user and by reading;
a pipe can be closed. -/
inductive DescriptorCall where
  | put (c : Byte) (answers : List DescriptorAnswer)
  | flush (answers : List DescriptorAnswer)
  | read (answers : List DescriptorAnswer)
  | setState (rdstate : IosState)
  | setWriteFd (wfd : Bool)
  deriving DecidableEq, Repr

namespace DescriptorStreamBuf

/-- A call of somebody who writes, unless one is still waiting. -/
def step (kind : DescriptorKind) (this : DescriptorStreamBuf) :
    DescriptorCall → Option DescriptorStreamBuf
  | .put c answers =>
    if this.waiting then none
    else some { this.sputc kind c answers with flushed := false }
  | .flush answers =>
    if this.waiting then none
    else
      let (this, success) := this.sync kind answers
      some { this with flushed := success }
  | .read answers =>
    if this.waiting then none
    else some { this.underflow kind answers with flushed := false }
  | .setState rdstate =>
    if this.waiting then none else some { this with rdstate := rdstate }
  | .setWriteFd wfd =>
    if this.waiting then none else some { this with wfd := wfd }

end DescriptorStreamBuf

end Coast
