import Coast.Io.URLSplit
import Coast.Utf8.Checked

/-!
# `MSAjaxFixFieldLengthResultMapper`

The mapper takes a delta response apart into entries, lets another mapper
change the value of every entry, and writes the entries again with the length
of the new values.
-/

namespace Coast

open URLUtils

/-- The configuration, and the mappers for the value of an entry and for the
length of the result.  The names of the fields differ, so that an index stands
for a name; a field without a token is null. -/
structure MSAjaxFixFieldLengthResultMapper (σ : Type) where
  fieldList : List (Option Bytes)
  delim : Byte
  /-- `ResultMapper::DoPutAny` for the value, and what it leaves in the
  temporary store. -/
  putValue : Bytes → σ → Option Bytes × σ
  putContentLength : Int → σ → σ

namespace MSAjaxFixFieldLengthResultMapper

def lenMarker : Int64 := 0

def addMarker : Byte := ch '+'

def delimLen : Int := 1

def memoryFrom (beyond : Nat → Byte) (text : Bytes) (length : Nat) : Bytes :=
  text.take length ++ (List.range (length - text.length)).map beyond

/-- So many characters; where they cannot be counted, so many bytes. -/
def getSubString (beyond : Nat → Byte) (sText : Bytes)
    (valueFieldLength : Int64) : Except Utf8Exception Bytes :=
  let count := valueFieldLength.toInt.toNat
  match Utf8.advance count sText with
  | .ok it => .ok (sText.take (sText.length - it.length))
  | .error .notEnoughRoom => .ok (memoryFrom beyond sText count)
  | .error .invalidCodePoint => .ok (memoryFrom beyond sText count)
  | .error .invalidUtf8 => .error .invalidUtf8

def delimPos (sText : Bytes) (delim : Byte) : Int := ((strChr sText delim).map Nat.cast).getD (-1)

def getFields (delim : Byte) : Nat → Bytes → List Bytes × Bytes
  | 0, sText => ([], sText)
  | lIdx + 1, sText =>
    let delimPos := delimPos sText delim
    let (fields, rest) := getFields delim lIdx (trimFront sText (delimPos + delimLen))
    (subStringFrom sText 0 delimPos :: fields, rest)

/-- The entry and what is left of the text.  Where no field is in front of the
value, `anyEntry[0L]` makes a null slot. -/
def getEntryFromString (beyond : Nat → Byte) (sText : Bytes) (delim : Byte)
    (nFields : Nat) : Except Utf8Exception (List Bytes × Bytes) := do
  let (fields, sText) := getFields delim (nFields - 1) sText
  let anyEntry := if fields = [] then [[]] else fields
  let valueFieldLength := (asLong (anyEntry.headD []) (-1)).1
  let value ← getSubString beyond sText valueFieldLength
  .ok (anyEntry ++ [value], trimFront sText (value.length + delimLen))

def getStringLength (str : Bytes) : Except Utf8Exception Nat :=
  match Utf8.distance str with
  | .error .invalidUtf8 => .ok str.length
  | result => result

/-- The loop of `adjustLengthField` over the field list and the slots of the
entry: the length, and the index of the length field. -/
def adjustLoop : List (Option Bytes × Bytes) → Nat → Nat → Option Nat →
    Except Utf8Exception (Nat × Option Nat)
  | [], _, len, lenIdx => .ok (len, lenIdx)
  | (none, _) :: fields, index, len, lenIdx =>
    adjustLoop fields (index + 1) len lenIdx
  | (some roaField, slot) :: fields, index, len, lenIdx =>
    if roaField.headD 0 = addMarker then do
      let count ← getStringLength slot
      adjustLoop fields (index + 1) (len + count) lenIdx
    else if (asLong roaField (-1)).1 = lenMarker then
      adjustLoop fields (index + 1) len (some index)
    else adjustLoop fields (index + 1) len lenIdx

def adjustLengthField (anyEntry : List Bytes)
    (roaFieldList : List (Option Bytes)) : Except Utf8Exception (List Bytes) :=
  do
    let (len, lenIdx) ← adjustLoop (roaFieldList.zip anyEntry) 0 0 none
    match lenIdx with
    | some lenIdx => .ok (anyEntry.set lenIdx (decimalText len))
    | none => .ok anyEntry

def appendEntryToString (strOut : Bytes) (delim : Byte) (anyEntry : List Bytes) : Bytes :=
  strOut ++ anyEntry.flatMap (· ++ [delim])

section

variable {σ : Type} (this : MSAjaxFixFieldLengthResultMapper σ) (beyond : Nat → Byte)

def nFields : Nat := this.fieldList.length

/-- The text that is left, what was put out, and the context. -/
structure EntryLoop (σ : Type) where
  sText : Bytes
  strOut : Bytes
  ctx : σ

/-- The value of an entry goes through the mapper, with its length set anew. -/
def processEntry (anyEntry : List Bytes) (strOut : Bytes) (ctx : σ) :
    Except Utf8Exception (Bytes × σ) := do
  let (anyModifiedValue, ctx) := this.putValue (anyEntry.getLastD []) ctx
  let anyEntry :=
    match anyModifiedValue with
    | some value => anyEntry.dropLast ++ [value]
    | none => anyEntry
  let anyEntry ← adjustLengthField anyEntry this.fieldList
  .ok (appendEntryToString strOut this.delim anyEntry, ctx)

def entryTurn (loop : EntryLoop σ) : Except Utf8Exception (EntryLoop σ) := do
  let (anyEntry, sText) ← getEntryFromString beyond loop.sText this.delim this.nFields
  if anyEntry.length = this.nFields then
    let (strOut, ctx) ← this.processEntry anyEntry loop.strOut loop.ctx
    .ok ⟨sText, strOut, ctx⟩
  else .ok ⟨sText, loop.strOut, loop.ctx⟩

/-- Entry after entry, as long as there is text. -/
def entryLoop : Nat → EntryLoop σ → Option (Except Utf8Exception (EntryLoop σ))
  | turns, loop =>
    if loop.sText = [] then some (.ok loop)
    else
      match turns with
      | 0 => none
      | turns + 1 =>
        match this.entryTurn beyond loop with
        | .ok loop => entryLoop turns loop
        | .error e => some (.error e)

/-- `DoPutAny`, up to putting the result: the text, and the context after the
values and the length are put. -/
def doPutAny (turns : Nat) (sText : Bytes) (ctx : σ) : Option (Except Utf8Exception (Bytes × σ)) :=
  if 0 < this.nFields then
    (this.entryLoop beyond turns ⟨sText, [], ctx⟩).map fun result => do
      let loop ← result
      .ok (loop.strOut, this.putContentLength loop.strOut.length loop.ctx)
  else some (.ok (sText, ctx))

end

end MSAjaxFixFieldLengthResultMapper

end Coast
