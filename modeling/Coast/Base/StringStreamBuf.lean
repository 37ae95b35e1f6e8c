import Coast.Base.StringMutators
import Coast.Library.Overwrite
import Coast.Library.Runs

/-!
# Output streams over a string

`StringStreamBuf` writes into the buffer of a `String`.  Its pointers are
modelled as offsets from the start of the buffer; they are zero as long as
there is none.  A function gives nothing where an assertion of the code fails
or a character would be stored outside of the buffer.
-/

namespace Coast

/-- The bits of `std::ios::openmode`. -/
structure OpenMode where
  in_ : Bool
  out : Bool
  app : Bool
  ate : Bool
  trunc : Bool
  deriving DecidableEq, Repr

inductive SeekDir where
  | beg
  | cur
  | end_
  deriving DecidableEq, Repr

/-- The string of a stream, with the pointers as distances from its beginning. -/
structure StringStreamBuf where
  fStore : StringRep
  fOpenMode : OpenMode
  eback : Int
  gptr : Int
  egptr : Int
  pptr : Int
  epptr : Int
  deriving DecidableEq, Repr

namespace StringStreamBuf

open StringRep

def asInt (n : Int) : Int := (n + 2 ^ 31) % 2 ^ 32 - 2 ^ 31

def eof : Int := -1

def setgetpointer (this : StringStreamBuf) (getoffset : Int) : StringStreamBuf :=
  { this with
    eback := if this.fOpenMode.in_ then 0 else length this.fStore
    gptr := getoffset
    egptr := length this.fStore }

def pbump (this : StringStreamBuf) (n : Int) : StringStreamBuf :=
  { this with pptr := this.pptr + asInt n }

/-- The string is as long as has been written. -/
def adjustStringLength (this : StringStreamBuf) : Option StringStreamBuf :=
  match this.fStore with
  | none => some this
  | some impl =>
    if !this.fOpenMode.out then some this
    else if 0 ≤ this.pptr ∧ this.pptr < impl.content.length then
      if (impl.fLength : Int) < this.pptr then
        some ({ this with
          fStore := some ⟨impl.content.set this.pptr.toNat 0,
            this.pptr.toNat⟩ }.setgetpointer (this.gptr - this.eback))
      else some this
    else none

/-- The put position that `setbufpointers` takes in append mode, and the mode
that is left. -/
def atEnd (this : StringStreamBuf) (putoffset : Int) : Int × OpenMode :=
  if (this.fOpenMode.app || this.fOpenMode.ate) ∧ putoffset < length this.fStore then
    (length this.fStore, { this.fOpenMode with ate := false })
  else (putoffset, this.fOpenMode)

/-- Both areas are set up over the content of the string. -/
def setbufpointers (this : StringStreamBuf) (getoffset putoffset : Int) : Option StringStreamBuf :=
  let (putoffset, fOpenMode) := this.atEnd putoffset
  let this := { this with fOpenMode := fOpenMode }.setgetpointer getoffset
  let this := { this with
    pptr := 0
    epptr := if 0 < capacity this.fStore then capacity this.fStore - 1 else 0 }
  match this.fStore with
  | none => if this.gptr = 0 then some this else none
  | some impl =>
    let this := this.pbump putoffset
    if 0 ≤ this.pptr ∧ this.pptr < impl.content.length ∧
        0 ≤ this.gptr ∧ this.gptr ≤ this.egptr then some this
    else none

/-- More room, with the pointers where they were. -/
def doreserve (env : StringEnv) (this : StringStreamBuf) (newlength : Int) :
    Option StringStreamBuf := do
  let this ← this.adjustStringLength
  if this.pptr ≠ length this.fStore then none
  else
    let putoffset := if this.fStore.isSome ∧ 0 < this.pptr then this.pptr else 0
    let getoffset :=
      if this.fStore.isSome ∧ this.eback < this.gptr then
        this.gptr - this.eback
      else 0
    let fStore ← StringRep.reserve env this.fStore (newlength - capacity this.fStore + 1)
    let this ← { this with fStore := fStore }.setbufpointers getoffset putoffset
    if this.epptr = (capacity this.fStore : Int) - 1 then some this else none

def reserve (env : StringEnv) (this : StringStreamBuf) (newlength : Int) : Option StringStreamBuf :=
  if capacity this.fStore ≤ newlength then this.doreserve env newlength
  else some this

/-- The character is stored at the put pointer, inside of the block. -/
def store (this : StringStreamBuf) (c : Byte) : Option StringStreamBuf :=
  match this.fStore with
  | none => none
  | some impl =>
    if 0 ≤ this.pptr ∧ this.pptr < impl.content.length then
      some { this with
        fStore := some { impl with
          content := impl.content.set this.pptr.toNat c }
        pptr := this.pptr + 1 }
    else none

def overflow (env : StringEnv) (this : StringStreamBuf) (c : Int) : Option StringStreamBuf :=
  if 0 ≤ this.pptr ∧ (this.fStore = none → this.pptr = 0) then
    if c ≠ eof then do
      let this ← this.reserve env (this.pptr + 1)
      if this.pptr < this.epptr then this.store (BitVec.ofInt 8 c) else none
    else this.adjustStringLength
  else none

def sputc (env : StringEnv) (this : StringStreamBuf) (c : Byte) : Option StringStreamBuf :=
  if this.pptr < this.epptr then this.store c
  else this.overflow env c.toNat

/-- `sbumpc`: a character, if the get area has one. -/
def sbumpc (this : StringStreamBuf) : Option Byte × StringStreamBuf :=
  if this.gptr < this.egptr then
    (if 0 ≤ this.gptr then
      (this.fStore.bind fun impl => impl.content[this.gptr.toNat]?)
    else none, { this with gptr := this.gptr + 1 })
  else (none, this)

def setPositions (this : StringStreamBuf) (p : Int) (mode : OpenMode) : StringStreamBuf × Int :=
  let this := if mode.in_ then this.setgetpointer p else this
  if mode.out then
    let p : Int :=
      if this.fOpenMode.app ∧ p < length this.fStore ∧ 0 < length this.fStore then
        length this.fStore
      else p
    let this := { this with pptr := 0 }
    (if this.fStore.isSome then this.pbump p else this, p)
  else (this, p)

/-- A position behind the block makes it grow, if it is written to. -/
def seekpos (env : StringEnv) (this : StringStreamBuf) (p : Int)
    (mode : OpenMode) : Option (StringStreamBuf × Int) := do
  let this ← this.adjustStringLength
  if capacity this.fStore ≤ p then
    if !mode.out then some (this, eof)
    else
      let this ← this.reserve env p
      some (this.setPositions p mode)
  else some (this.setPositions p mode)

def target (this : StringStreamBuf) (off : Int) (dir : SeekDir) (mode : OpenMode) : Int :=
  off + match dir with
    | .beg => 0
    | .cur => if mode.in_ then this.gptr else this.pptr
    | .end_ => if 0 < length this.fStore then length this.fStore else 0

def seekoff (env : StringEnv) (this : StringStreamBuf) (off : Int)
    (dir : SeekDir) (mode : OpenMode) : Option (StringStreamBuf × Int) := do
  let this ← this.adjustStringLength
  if this.target off dir mode < 0 then some (this, eof)
  else this.seekpos env (this.target off dir mode) mode

def sync (this : StringStreamBuf) : Option StringStreamBuf := this.adjustStringLength

/-- The string that a stream writes to: its own one, or one that it is
given. -/
inductive Target where
  | own
  | null
  | string (s : StringRep)

def Target.store (env : StringEnv) (mode : OpenMode) : Target → Option StringRep
  | .own => alloc env 64
  | .null => alloc env 16
  | .string s => if mode.trunc then alloc env 16 else some s

def create (env : StringEnv) (target : Target) (mode : OpenMode) : Option StringStreamBuf := do
  let fStore ← target.store env mode
  let fOpenMode := if mode.ate || mode.app then { mode with out := true } else mode
  { fStore, fOpenMode, eback := 0, gptr := 0, egptr := 0, pptr := 0,
    epptr := 0 : StringStreamBuf }.setbufpointers 0 0

end StringStreamBuf

/-- A stream in use, the text that its writes make, and the put position. -/
structure StringStream where
  buf : StringStreamBuf
  text : RandomAccess.Written Byte
  pos : Int

inductive StreamCall where
  | put (c : Byte)
  | get
  | seekpos (p : Nat) (mode : OpenMode)
  | seekoff (off : Int) (dir : SeekDir) (mode : OpenMode)
  | str
  deriving DecidableEq, Repr

namespace StringStream

open StringStreamBuf

def sought (this : StringStream) (mode : OpenMode)
    (result : StringStreamBuf × Int) : StringStream :=
  { this with
    buf := result.1
    pos := if mode.out ∧ result.2 ≠ eof then result.2 else this.pos }

/-- A call on the stream, beside the plain text that it stands for. -/
def step (env : StringEnv) (this : StringStream) : StreamCall → Option StringStream
  | .put c => do
      let buf ← this.buf.sputc env c
      some ⟨buf, this.text.write this.pos.toNat c, this.pos + 1⟩
  | .get => some { this with buf := this.buf.sbumpc.2 }
  | .seekpos p mode => do
      let result ← this.buf.seekpos env p mode
      some (this.sought mode result)
  | .seekoff off dir mode => do
      let result ← this.buf.seekoff env off dir mode
      some (this.sought mode result)
  | .str => do
      let buf ← this.buf.sync
      some { this with buf := buf }

def create (env : StringEnv) (target : Target) (mode : OpenMode) : Option StringStream := do
  let store ← target.store env mode
  let buf ← StringStreamBuf.create env target mode
  some ⟨buf, .ofList store.text, if mode.app || mode.ate then store.text.length else 0⟩

end StringStream

end Coast
