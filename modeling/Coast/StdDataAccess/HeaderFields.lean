import Coast.StdDataAccess.FilePart

/-!
# Lists of header fields

A header is read into one slot for each normalized name, with the values of
the fields of that name in their order.
-/

namespace Coast

open URLUtils HTTPConstants List

def slotOf : List Bytes → Option Anything
  | [] => none
  | [value] => some (.charPtr value)
  | values => some (.array (values.map fun value => ([], .charPtr value)))

theorem slotOf_concat {values : List Bytes} {slot : Anything}
    (stored : slotOf values = some slot) (value : Bytes) :
    slotOf (values ++ [value]) = some (slot.append (.charPtr value)) := by
  match values, stored with
  | [_], stored =>
    cases stored
    rfl
  | first :: second :: values, stored =>
    cases stored
    rw [Anything.append, Anything.slots, Slots.append]
    show some (Anything.array ((first :: second :: (values ++ [value])).map
      fun value => ([], Anything.charPtr value))) = _
    simp

theorem slotOf_eq_none {values : List Bytes} (unset : slotOf values = none) : values = [] := by
  match values, unset with
  | [], _ => rfl
  | [_], unset => cases unset
  | _ :: _ :: _, unset => cases unset

/-- Under each name stand these values, in a slot or in an array of slots. -/
structure Holds (header : Anything) (values : Bytes → List Bytes) : Prop where
  isArray : header = .null ∨ ∃ slots, header = .array slots
  keysOk : Slots.KeysOk header.slots
  lookup : ∀ key, NulFree key → key ≠ [] → Slots.lookup header.slots key = slotOf (values key)

theorem holds_null : Holds .null fun _ => [] where
  isArray := .inl rfl
  keysOk := ⟨nodup_nil, fun _ member => nomatch member⟩
  lookup := by
    intro key nulFree named
    rw [Slots.lookup, Slots.findIndex]
    split <;> rfl

namespace Holds

variable {header : Anything} {values : Bytes → List Bytes}
  (holds : Holds header values) {key : Bytes} (nulFree : NulFree key)
  (named : key ≠ [])

include holds

theorem isDefined : header.isDefined key = (Slots.lookup header.slots key).isSome := by
  rcases holds.isArray with rfl | ⟨slots, rfl⟩
  · rw [← Slots.isDefined_eq, Slots.isDefined, Slots.findIndex]
    split <;> rfl
  · exact Slots.isDefined_eq slots key

theorem atKey : header.atKey key = (Slots.lookup header.slots key).getD .null := by
  rcases holds.isArray with rfl | ⟨slots, rfl⟩
  · rw [Slots.lookup, Slots.findIndex]
    split <;> rfl
  · rfl

include nulFree named

theorem assign {stored : List Bytes} {value : Anything} (isSlot : slotOf stored = some value) :
    Holds (header.assign key value) fun other => if other = key then stored else values other where
  isArray := .inr ⟨_, rfl⟩
  keysOk := holds.keysOk.setKey nulFree value
  lookup := by
    intro other otherFree otherNamed
    have found := holds.keysOk.lookup_setKey nulFree named value otherFree otherNamed
    rw [Anything.assign, Anything.slots, found]
    split
    · exact isSlot.symm
    · exact holds.lookup other otherFree otherNamed

theorem appendValueTo {value : Bytes} (valueFree : NulFree value) :
    Holds (appendValueTo header key value)
      fun other => if other = key then values other ++ [value] else values other := by
  have here := holds.lookup key nulFree named
  have same : (fun other => if other = key then values other ++ [value]
      else values other) = fun other =>
        if other = key then values key ++ [value] else values other := by
    funext other
    split
    · rename_i isKey
      rw [isKey]
    · rfl
  rw [same, URLUtils.appendValueTo, if_pos named, holds.isDefined, holds.atKey,
    here, cstr_of_nulFree valueFree]
  cases stored : slotOf (values key) with
  | none =>
    rw [slotOf_eq_none stored]
    exact holds.assign nulFree named rfl
  | some slot =>
    exact holds.assign nulFree named (slotOf_concat stored value)

end Holds

def InLine (c : Byte) : Prop := c ≠ CR ∧ c ≠ LF ∧ c ≠ 0

instance (c : Byte) : Decidable (InLine c) := inferInstanceAs (Decidable (_ ∧ _))

/-- A field of one line with a single value. -/
structure HeaderField where
  name : Bytes
  value : Bytes
  named : name ≠ []
  noColon : ch ':' ∉ name
  nameInLine : ∀ c ∈ name, InLine c
  single : MIMEHeader.isMultiValue name = false
  plain : name.map toupper ≠ contentDispositionSlotname
  valueInLine : ∀ c ∈ value, InLine c
  noBlank : value.head? ≠ some (ch ' ')

namespace HeaderField

def line (field : HeaderField) : Bytes := field.name ++ ch ':' :: ch ' ' :: field.value

def text (field : HeaderField) : Bytes := field.line ++ crlf

def headerText (fields : List HeaderField) : Bytes := fields.flatMap text ++ crlf

variable (field : HeaderField) (tag : NormalizeTag)

def key : Bytes := MIMEHeader.shiftedHeaderKey field.name tag

def boundaryKey : Bytes := MIMEHeader.shiftedHeaderKey boundarySlotname tag

def contentTypeKey : Bytes := MIMEHeader.shiftedHeaderKey contentTypeSlotname tag

def boundary : Option Bytes :=
  if field.key tag = contentTypeKey tag then
    MIMEHeader.multipartBoundary field.value
  else none

/-- What a field makes of the values under a name. -/
def stepValues (key : Bytes) (values : List Bytes) : List Bytes :=
  match field.boundary tag with
  | some strBoundary =>
    if key = boundaryKey tag then [strBoundary]
    else if key = field.key tag then values ++ [field.value]
    else values
  | none =>
    if key = field.key tag then values ++ [field.value] else values

def shift : NormalizeTag → Byte → Byte
  | .eUpshift => toupper
  | .eDownshift => StringRep.tolower
  | .eUntouched => id

theorem normalize_eq {str : Bytes} (nulFree : NulFree str) :
    normalize str tag = str.map (shift tag) := by
  cases tag with
  | eUpshift => exact normalize_eUpshift nulFree
  | eDownshift =>
    rw [URLUtils.normalize, cstr_of_nulFree nulFree, drop_length, append_nil]
    rfl
  | eUntouched => exact (map_id str).symm

theorem toupper_shift : ∀ c, toupper (shift tag c) = toupper c := by
  cases tag with
  | eUpshift => decide +kernel
  | eDownshift => decide +kernel
  | eUntouched => exact fun _ => rfl

theorem shift_ne_zero : ∀ c : Byte, c ≠ 0 → shift tag c ≠ 0 := by
  cases tag with
  | eUpshift => decide +kernel
  | eDownshift => decide +kernel
  | eUntouched => exact fun _ some_ => some_

theorem nulFree_name : NulFree field.name := fun member =>
  (field.nameInLine 0 member).2.2 rfl

theorem nulFree_value : NulFree field.value := fun member =>
  (field.valueInLine 0 member).2.2 rfl

theorem key_eq : field.key tag = field.name.map (shift tag) := normalize_eq tag field.nulFree_name

theorem key_ne_nil : field.key tag ≠ [] := by
  rw [key_eq, ne_eq, map_eq_nil_iff]
  exact field.named

theorem nulFree_key : NulFree (field.key tag) := by
  rw [key_eq]
  intro member
  rcases mem_map.mp member with ⟨c, inside, same⟩
  exact shift_ne_zero tag c (field.nameInLine c inside).2.2 same

theorem map_toupper_key : (field.key tag).map toupper = field.name.map toupper := by
  rw [key_eq, map_map]
  exact map_congr_left fun c _ => toupper_shift tag c

theorem storeKeyValue_key (headers : Anything) :
    MIMEHeader.storeKeyValue headers (field.key tag) field.value =
      appendValueTo headers (field.key tag) field.value := by
  have single : MIMEHeader.isMultiValue (field.key tag) = false := by
    rw [MIMEHeader.isMultiValue, map_toupper_key]
    exact field.single
  have plain : cstr (field.key tag) ≠ contentDispositionSlotname := by
    rw [cstr_of_nulFree (field.nulFree_key tag)]
    intro same
    have upper := congrArg (List.map toupper) same
    rw [map_toupper_key] at upper
    exact field.plain (upper.trans (by decide))
  rw [MIMEHeader.storeKeyValue, single, if_neg Bool.false_ne_true, if_neg plain]

theorem trimBlanks_value : trimBlanks (ch ' ' :: field.value) = field.value := by
  have noBlank := field.noBlank
  show field.value.dropWhile (· = ch ' ') = field.value
  cases value : field.value with
  | nil => rfl
  | cons c rest =>
    rw [value] at noBlank
    have other : ¬c = ch ' ' := fun same => noBlank (congrArg some same)
    rw [dropWhile_cons, if_neg (by rwa [decide_eq_true_eq])]

theorem splitAndAddHeaderLine_line (headers : Anything) :
    MIMEHeader.splitAndAddHeaderLine headers field.line tag =
      .ok (match field.boundary tag with
        | some strBoundary =>
          (appendValueTo headers (field.key tag) field.value).assign
            (boundaryKey tag) (.charPtr strBoundary)
        | none => appendValueTo headers (field.key tag) field.value) := by
  rw [line, MIMEHeader.splitAndAddHeaderLine_field headers (ch ' ' :: field.value) tag
    field.named field.noColon (cons_ne_nil _ _), trimBlanks_value]
  show Except.ok (if field.key tag = contentTypeKey tag then
    MIMEHeader.checkMultipartBoundary _
      (MIMEHeader.storeKeyValue headers (field.key tag) field.value) tag
    else MIMEHeader.storeKeyValue headers (field.key tag) field.value) = _
  rw [storeKeyValue_key, boundary]
  split
  · rw [MIMEHeader.checkMultipartBoundary]
    rfl
  · rfl

end HeaderField

/-- One more line adds its field. -/
theorem Holds.step {header : Anything} {values : Bytes → List Bytes}
    (holds : Holds header values) (field : HeaderField) (tag : NormalizeTag) :
    ∃ after, MIMEHeader.splitAndAddHeaderLine header field.line tag = .ok after ∧
      Holds after fun key => field.stepValues tag key (values key) := by
  have appended := holds.appendValueTo (field.nulFree_key tag)
    (field.key_ne_nil tag) field.nulFree_value
  refine ⟨_, field.splitAndAddHeaderLine_line tag header, ?_⟩
  simp only [HeaderField.stepValues]
  cases field.boundary tag with
  | none => exact appended
  | some strBoundary =>
    have boundaryFree : NulFree (HeaderField.boundaryKey tag) := by
      cases tag <;> decide
    have boundaryNamed : HeaderField.boundaryKey tag ≠ [] := by
      cases tag <;> decide
    exact appended.assign boundaryFree boundaryNamed rfl

end Coast
