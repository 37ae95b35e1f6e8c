import Coast.Base.Bytes
import Coast.Library.Runs

/-!
# A log channel

Messages are buffered and written to a stream that `Rotate` deletes and
replaces.  `LogAll` tests the stream before it has the mutex of the channel.
-/

namespace Coast

open Function

/-- The settings that `DoInitClone` takes from the configuration. -/
structure AppLogChannelInfo where
  fSuppressEmptyLines : Bool
  fDoNotRotate : Bool
  fNoLogItemsWrite : Bool
  fItemsToBuffer : Nat
  fSeverity : Nat
  header : List Bytes
  buffers : 1 ≤ fItemsToBuffer

/-- `BufferItems` is at least 1. -/
def AppLogChannelInfo.doInitClone (suppressEmptyLines doNotRotate noLogItemsWrite : Bool)
    (bufferItems : Int) (severity : Nat) (header : List Bytes) : AppLogChannelInfo where
  fSuppressEmptyLines := suppressEmptyLines
  fDoNotRotate := doNotRotate
  fNoLogItemsWrite := noLogItemsWrite
  fItemsToBuffer := if bufferItems ≤ 0 then 1 else bufferItems.toNat
  fSeverity := severity
  header := header
  buffers := by split <;> omega

/-- A message of `LogAll` with what `LogAll` returned. -/
structure LogItem where
  logMsg : Bytes
  returned : Bool
  deriving DecidableEq, Repr

namespace LogItem

/-- It is not empty and `LogAll` returned true. -/
def counts (this : LogItem) : Bool := this.returned && !this.logMsg.isEmpty

end LogItem

/-- A log stream: the header and the messages that were written to it. -/
structure LogStream where
  header : Bytes
  items : List LogItem
  good : Bool
  deleted : Bool
  deriving DecidableEq, Repr

namespace LogStream

/-- `<< fBuffer << std::flush`; a stream that is not good, or that refuses the
write, is not good afterwards. -/
def write (this : LogStream) (fBuffer : List LogItem) (accepted : Bool) : LogStream :=
  if this.good && accepted then
    { this with items := this.items ++ fBuffer }
  else { this with good := false }

def delete (this : LogStream) : LogStream := { this with deleted := true }

/-- A new stream, after `WriteHeader`. -/
def open_ (header : List Bytes) (accepted : Bool) : LogStream where
  header := if header.isEmpty || !accepted then [] else header.flatten ++ [ch '\n']
  items := []
  good := header.isEmpty || accepted
  deleted := false

end LogStream

/-- Where a thread is: between the test of `LogAll` and the section that
appends the message, or between the sections of `Rotate`. -/
inductive LogPc where
  | idle
  | append (logMsg : Bytes)
  | reopen
  deriving DecidableEq, Repr

/-- The channel: `fLogStream` is the number of a stream; `logged` are the
messages that came to the locked section, in its order, `unlogged` those that
are not empty, of an enabled severity and did not, while `LogAll` returned
true; `misused` says that a stream was used that is NULL or deleted. -/
structure AppLogChannel (ι : Type) where
  info : AppLogChannelInfo
  fLogStream : Option Nat
  fBuffer : List LogItem
  fItemsInBuffer : Nat
  streams : List LogStream
  pcs : ι → LogPc
  logged : List LogItem
  unlogged : List Bytes
  misused : Bool

/-- One step: the test, or a locked section.  `accepted` says whether the
stream takes what is written, `opened` whether the new file can be opened. -/
inductive LogAction (ι : Type) where
  | logAll (me : ι) (iLevel : Nat) (logMsg : Bytes)
  | append (me : ι) (accepted : Bool)
  | flushItems (me : ι) (accepted : Bool)
  | rotate (me : ι) (overrideDoNotRotateLogs : Bool)
  | reopen (me : ι) (accepted opened headerAccepted : Bool)
  deriving DecidableEq, Repr

namespace AppLogChannel

variable {ι : Type}

/-- A new channel; `opened` says whether `OpenLogStream` gave a stream. -/
def create (info : AppLogChannelInfo) (opened headerAccepted : Bool) : AppLogChannel ι where
  info := info
  fLogStream := if opened then some 0 else none
  fBuffer := []
  fItemsInBuffer := 0
  streams := if opened then [LogStream.open_ info.header headerAccepted] else []
  pcs _ := .idle
  logged := []
  unlogged := []
  misused := false

def stream (this : AppLogChannel ι) : Option LogStream :=
  (this.fLogStream.bind fun i => this.streams[i]?).filter fun os => !os.deleted

def misuse (this : AppLogChannel ι) : AppLogChannel ι := { this with misused := true }

def setStream (this : AppLogChannel ι) (os : LogStream) : AppLogChannel ι :=
  match this.fLogStream with
  | some i => { this with streams := this.streams.set i os }
  | none => this

/-- The buffer is given to the stream and is empty then, also when the stream refuses it. -/
def doFlushItems (this : AppLogChannel ι) (accepted : Bool) : AppLogChannel ι :=
  if this.fLogStream.isNone || this.fItemsInBuffer = 0 then this
  else
    match this.stream with
    | none => this.misuse
    | some os =>
      { this.setStream (os.write this.fBuffer accepted) with
        fBuffer := []
        fItemsInBuffer := 0 }

def closeStream (this : AppLogChannel ι) (accepted : Bool) : AppLogChannel ι :=
  if this.fLogStream.isSome then
    let flushed := this.doFlushItems accepted
    match flushed.stream with
    | none => flushed.misuse
    | some os => { flushed.setStream os.delete with fLogStream := none }
  else this

/-- `Rotate` opens a new stream, or cannot. -/
def openStream (this : AppLogChannel ι) (opened headerAccepted : Bool) : AppLogChannel ι :=
  if opened then
    { this with
      fLogStream := some this.streams.length
      streams := this.streams ++ [LogStream.open_ this.info.header headerAccepted] }
  else { this with fLogStream := none }

def buffer (this : AppLogChannel ι) (item : LogItem) : AppLogChannel ι :=
  { this with
    fBuffer := this.fBuffer ++ [item]
    fItemsInBuffer := this.fItemsInBuffer + 1
    logged := this.logged ++ [item] }

variable [DecidableEq ι]

def moveTo (this : AppLogChannel ι) (me : ι) (pc : LogPc) : AppLogChannel ι :=
  { this with pcs := update this.pcs me pc }

/-- `LogAll` returns without the locked section. -/
def return_ (this : AppLogChannel ι) (iLevel : Nat) (logMsg : Bytes)
    (result : Bool) : AppLogChannel ι :=
  if result && 0 < iLevel &&& this.info.fSeverity && !logMsg.isEmpty then
    { this with unlogged := this.unlogged ++ [logMsg] }
  else this

/-- `LogAll` up to its locked section, with the tests of the stream in front of it. -/
def logAll (this : AppLogChannel ι) (me : ι) (iLevel : Nat) (logMsg : Bytes) : AppLogChannel ι :=
  if this.fLogStream.isSome && this.stream.isNone then this.misuse
  else if this.stream.any LogStream.good then
    if this.info.fNoLogItemsWrite then this.return_ iLevel logMsg true
    else if 0 < iLevel &&& this.info.fSeverity &&
        (!this.info.fSuppressEmptyLines || !logMsg.isEmpty) then
      this.moveTo me (.append logMsg)
    else this.return_ iLevel logMsg this.info.fSuppressEmptyLines
  else this.return_ iLevel logMsg this.info.fSuppressEmptyLines

def result (this : AppLogChannel ι) (accepted : Bool) : Bool :=
  (this.fItemsInBuffer + 1) % this.info.fItemsToBuffer ≠ 0 ||
    this.stream.any fun os => os.good && accepted

/-- The message is buffered, and a full buffer is written. -/
def append (this : AppLogChannel ι) (me : ι) (logMsg : Bytes) (accepted : Bool) : AppLogChannel ι :=
  let buffered := (this.moveTo me .idle).buffer ⟨logMsg, this.result accepted⟩
  if buffered.fItemsInBuffer % this.info.fItemsToBuffer ≠ 0 then buffered
  else
    let flushed := buffered.doFlushItems accepted
    -- `!!(*fLogStream)`
    if flushed.stream.isNone then flushed.misuse else flushed

def flushItems (this : AppLogChannel ι) (accepted : Bool) : AppLogChannel ι :=
  if 0 < this.fItemsInBuffer then this.doFlushItems accepted else this

/-- The second locked section of `Rotate`. -/
def reopen (this : AppLogChannel ι) (me : ι)
    (accepted opened headerAccepted : Bool) : AppLogChannel ι :=
  ((this.moveTo me .idle).closeStream accepted).openStream opened headerAccepted

/-- One locked section, or one test without the mutex, of some client. -/
def step (this : AppLogChannel ι) : LogAction ι → Option (AppLogChannel ι)
  | .logAll me iLevel logMsg =>
    if this.pcs me = .idle then some (this.logAll me iLevel logMsg)
    else none
  | .append me accepted =>
    match this.pcs me with
    | .append logMsg => some (this.append me logMsg accepted)
    | _ => none
  | .flushItems me accepted =>
    if this.pcs me = .idle then some (this.flushItems accepted) else none
  | .rotate me overrideDoNotRotateLogs =>
    if this.pcs me = .idle then
      if this.fLogStream.isNone || overrideDoNotRotateLogs ||
          !this.info.fDoNotRotate then
        some (this.moveTo me .reopen)
      else some this
    else none
  | .reopen me accepted opened headerAccepted =>
    if this.pcs me = .reopen then
      some (this.reopen me accepted opened headerAccepted)
    else none

end AppLogChannel

end Coast
