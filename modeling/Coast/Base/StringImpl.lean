import Coast.Base.Decimal
import Coast.Library.Overwrite

/-!
# The buffer of a string

`String` keeps its length and a block of memory; the mutators compute lengths,
capacities and the terminating NUL by hand.  A function gives nothing where
the code writes outside of its block or asks `Calloc`, whose count is an
`int`, for more than an `int` can hold.
-/

namespace Coast

open Overwrite

/-- `StringImpl`: the block has `fCapacity` bytes. -/
structure StringImpl where
  content : Bytes
  fLength : Nat
  deriving DecidableEq, Repr

/-- A `String`, without a buffer at first. -/
abbrev StringRep := Option StringImpl

/-- The allocator of the strings. -/
structure StringEnv where
  /-- `SizeHint` of the allocator. -/
  sizeHint : Nat → Nat
  enough : ∀ size, size ≤ sizeHint size
  /-- Whether `Calloc` finds a block of this size. -/
  succeeds : Nat → Bool
  /-- The memory behind a block. -/
  behind : Nat → Byte

/-- A pointer: the memory from there on and what `strlen` says of it. -/
structure Source where
  memory : Nat → Byte
  strlen : Nat

namespace Source

def bytes (s : Source) (len : Nat) : Bytes := (List.range len).map s.memory

def text (text : Bytes) : Source := ⟨fun i => (cstr text).getD i 0, (cstr text).length⟩

def buffer (bytes : Bytes) : Source := ⟨fun i => bytes.getD i 0, (cstr bytes).length⟩

def from_ (s : Source) (start : Nat) : Source := ⟨fun i => s.memory (start + i), s.strlen - start⟩

end Source

namespace StringRep

def cStrAllocMinimum : Nat := 32
def cStrAllocLimit : Nat := 4096
def cStrAllocIncrement : Nat := 1024

def tara : Nat := 16

def intMax : Nat := 2147483647

def length : StringRep → Nat
  | none => 0
  | some impl => impl.fLength

def text : StringRep → Bytes
  | none => []
  | some impl => impl.content.take impl.fLength

def capacity : StringRep → Nat
  | none => 0
  | some impl => impl.content.length

def pointer (env : StringEnv) : StringRep → Source
  | none => ⟨fun i => if i = 0 then 0 else env.behind i, 0⟩
  | some impl =>
    ⟨fun i => (impl.content ++ (List.range (i + 1)).map env.behind).getD i 0,
      (cstr impl.content).length⟩

/-- A block of at least this capacity; a size beyond `int` is not defined. -/
def alloc (env : StringEnv) (capacity : Int) : Option StringRep :=
  let capacity := if capacity ≤ 0 then cStrAllocMinimum else capacity.toNat
  let size := env.sizeHint (capacity + tara)
  if size ≤ intMax then
    some (if env.succeeds size then
      some ⟨List.replicate (size - tara) 0, 0⟩
    else none)
  else none

def allocCapacity (s : StringRep) (newLength : Nat) : Nat :=
  if s.isSome then
    if newLength < cStrAllocLimit then
      if newLength < cStrAllocMinimum then cStrAllocMinimum
      else 2 * newLength
    else newLength + cStrAllocIncrement
  else newLength + 1

/-- The second half of `Set`: the characters are placed and the string is
terminated. -/
def place (impl : StringImpl) (start : Nat) (s : Option Source) (len : Nat) : Option StringRep :=
  match s with
  | some s => do
      let content ← overwrite impl.content start (s.bytes len)
      let content ← overwrite content (start + len) [0]
      some (some ⟨content, start + len⟩)
  | none => do
      let content ← overwrite impl.content start [0]
      some (some ⟨content, start⟩)

/-- Characters are placed from `start` on, in a larger block if they do not fit. -/
def set (env : StringEnv) (this : StringRep) (start : Int)
    (s : Option Source) (len : Int) : Option StringRep :=
  let start := start.toNat
  let len := if len < 0 then (s.map Source.strlen).getD 0 else len.toNat
  let newLength := start + len
  if 0 < newLength && capacity this ≤ newLength then do
    let grown ← alloc env (allocCapacity this newLength)
    match grown with
    | none => some this
    | some impl =>
      let old := match this with
        | none => []
        | some oldImpl => oldImpl.content.take (min start oldImpl.fLength)
      let content ← overwrite impl.content 0 old
      place ⟨content, impl.fLength⟩ start s len
  else
    match this with
    | none => some none
    | some impl => place impl start s len

/-- The constructors. -/
inductive Construction where
  | empty
  | reserved (capacity : Int)
  | chars (s : Option Bytes) (l : Int)
  | buffer (s : Option Bytes) (l : Int)
  /-- A copy of a string: its text, if it has a buffer. -/
  | copy (s : Option Bytes)

def atMost (strlen : Nat) (len : Int) : Int := if (strlen : Int) < len then strlen else len

/-- The constructors; `none` where one writes outside its block. -/
def construct (env : StringEnv) : Construction → Option StringRep
  | .empty => some none
  | .reserved capacity => alloc env capacity
  | .chars (some s) l =>
    set env none 0 (some (.text s)) (atMost (Source.text s).strlen l)
  | .chars none _ => some none
  | .buffer s l =>
    if 0 < l then
      match s with
      | some s => set env none 0 (some (.buffer s)) l
      | none => alloc env l
    else some none
  | .copy (some s) => set env none 0 (some (.buffer s)) s.length
  | .copy none => some none

def assignChars (env : StringEnv) (this : StringRep) (s : Option Bytes) : Option StringRep :=
  set env this 0 (s.map Source.text) (-1)

def assign (env : StringEnv) (this : StringRep) (s : Option Bytes) : Option StringRep :=
  match s with
  | some s => set env this 0 (some (.buffer s)) s.length
  | none => if this.isSome then set env this 0 none 0 else some this

/-- The character is stored behind the text, if there is room for it. -/
def appendChar (env : StringEnv) (this : StringRep) (c : Byte) : Option StringRep :=
  if capacity this < length this + 2 then
    set env this (length this) (some (.buffer [c])) 1
  else
    match this with
    | none => none
    | some impl => do
        let content ← overwrite impl.content impl.fLength [c]
        let content ← overwrite content (impl.fLength + 1) [0]
        some (some ⟨content, impl.fLength + 1⟩)

def appendSource (env : StringEnv) (this : StringRep) (s : Option Source)
    (len : Int) : Option StringRep :=
  match s with
  | some s => set env this (length this) (some s) (atMost s.strlen len)
  | none => some this

def appendChars (env : StringEnv) (this : StringRep) (s : Option Bytes)
    (len : Int) : Option StringRep :=
  appendSource env this (s.map Source.text) len

def appendBuffer (env : StringEnv) (this : StringRep) (s : Option Bytes)
    (len : Int) : Option StringRep :=
  match s with
  | some s =>
    if 0 < len then set env this (length this) (some (.buffer s)) len
    else some this
  | none => some this

def append (env : StringEnv) (this : StringRep) (s : Option Bytes) : Option StringRep :=
  match s with
  | some s => set env this (length this) (some (.buffer s)) s.length
  | none => some this

/-- The text that `SnPrintf` stores in a buffer of `bufSize` bytes and its
count, which is taken when everything was stored. -/
def appendPrinted (env : StringEnv) (this : StringRep) (bufSize : Nat)
    (printed : Bytes) (count : Nat) : Option StringRep :=
  set env this (length this) (some (.text (printed.take (bufSize - 1))))
    (if bufSize ≤ count then -1 else count)

def appendLong (env : StringEnv) (this : StringRep) (number : Int64) : Option StringRep :=
  appendPrinted env this 100 (decimalText number.toInt) (decimalText number.toInt).length

/-- The trailing zeros that `DoubleToString` eats, from the last character
on. -/
def eatenZeros : Bytes → Nat
  | c :: d :: text =>
    if c = ch '0' && d ≠ ch '.' then eatenZeros (d :: text) + 1 else 0
  | _ => 0

/-- `DoubleToString` for what `SnPrintf` prints of the number; `low` says that
the number is below 1e+16. -/
def appendDouble (env : StringEnv) (this : StringRep) (low : Bool)
    (printed : Bytes) : Option StringRep :=
  let count :=
    if low then printed.length - eatenZeros (printed.take 499).reverse
    else printed.length
  appendPrinted env this 500 printed count

def trim (env : StringEnv) (this : StringRep) (newlen : Int) : Option StringRep :=
  if newlen ≤ length this then set env this newlen none 0 else some this

/-- The front is cut off, by placing the rest anew. -/
def trimFront (env : StringEnv) (this : StringRep) (newstart : Int) : Option StringRep :=
  if 0 ≤ newstart && newstart < length this then
    set env this 0 (some ((pointer env this).from_ newstart.toNat)) (length this - newstart)
  else if (length this : Int) ≤ newstart then
    match this with
    | none => some none
    | some impl => do
        let content ← overwrite impl.content 0 [0]
        some (some ⟨content, 0⟩)
  else some this

def reserve (env : StringEnv) (this : StringRep) (minreserve : Int) : Option StringRep :=
  set env this (length this) none (max minreserve 0)

/-- In place below the length, through `Set` from there on. -/
def putAt (env : StringEnv) (this : StringRep) (pos : Int) (c : Byte) : Option StringRep :=
  if 0 ≤ pos then
    match this with
    | some impl =>
      if pos < impl.fLength then do
        let content ← overwrite impl.content pos.toNat [c]
        some (some ⟨content, impl.fLength⟩)
      else set env this pos (some (.buffer [c])) 1
    | none => set env this pos (some (.buffer [c])) 1
  else some this

/-- `memcpy` into the text, which must not overlap its source. -/
def replaceAt (env : StringEnv) (this : StringRep) (pos : Int)
    (s : Option Source) (len : Int) : Option StringRep :=
  match s with
  | none => some this
  | some s =>
    if 0 ≤ pos && 0 < len then
      if (length this : Int) - pos < len then set env this pos (some s) len
      else
        match this with
        | none => none
        | some impl => do
            let content ← overwrite impl.content pos.toNat (s.bytes len.toNat)
            some (some ⟨content, impl.fLength⟩)
    else some this

def strstr (pattern : Bytes) : Bytes → Option Nat
  | [] => if pattern = [] then some 0 else none
  | c :: text =>
    if pattern.isPrefixOf (c :: text) then some 0
    else (strstr pattern text).map (· + 1)

def subString (env : StringEnv) (this : StringRep) (start : Nat) : Option StringRep :=
  match this with
  | none => some none
  | some impl =>
    if impl.fLength ≤ start then some none
    else
      set env none 0 (some ((pointer env this).from_ start)) (impl.fLength - start : Nat)

/-- `Replace`; `replacement` is the text that the pointer shows when it is
appended. -/
def replace (env : StringEnv) (this : StringRep) (pattern : Option Bytes)
    (replacement : Option Bytes) : Option StringRep :=
  match this, pattern with
  | some impl, some pattern =>
    match strstr (cstr pattern) (cstr impl.content) with
    | none => some this
    | some pos => do
        let tmp ← subString env this (pos + (cstr pattern).length)
        let this ← trim env this pos
        let this ← appendChars env this replacement (-1)
        append env this (tmp.map fun impl => impl.content.take impl.fLength)
  | _, _ => some this

def tolower (c : Byte) : Byte := if ch 'A' ≤ c && c ≤ ch 'Z' then c + 32 else c

def convertCase (convert : Byte → Byte) : Bytes → Option Bytes
  | [] => none
  | c :: content =>
    if c = 0 then some (c :: content)
    else (convertCase convert content).map (convert c :: ·)

def toCase (convert : Byte → Byte) (this : StringRep) : Option StringRep :=
  match this with
  | none => some none
  | some impl => do
      let content ← convertCase convert impl.content
      some (some ⟨content, impl.fLength⟩)

/-- The text is moved back and the front is filled. -/
def prependWith (env : StringEnv) (this : StringRep) (newLength : Int)
    (fill : Byte) : Option StringRep :=
  let oldLength := length this
  let fillTo := newLength - oldLength
  if 0 < fillTo then do
    let this ← reserve env this (max newLength oldLength)
    let this ←
      if oldLength ≠ 0 then
        if 2 * (oldLength : Int) ≤ newLength then
          replaceAt env this fillTo (some (pointer env this)) oldLength
        else do
          let tmp ← set env none 0 (some (pointer env this)) (-1)
          replaceAt env this fillTo (some (pointer env tmp)) oldLength
      else
        match this with
        | none => none
        | some impl =>
          some (some ⟨impl.content, impl.fLength + fillTo.toNat⟩)
    match this with
    | none => none
    | some impl => do
        let content ← overwrite impl.content 0 (List.replicate fillTo.toNat fill)
        some (some ⟨content, impl.fLength⟩)
  else some this

end StringRep

end Coast
