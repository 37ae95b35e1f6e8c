import Coast.Base.NumberHistory
import Coast.StdDataAccess.DeltaResponse

/-!
# Writing a delta response again

A well-formed response is a row of entries.  The mapper writes the entries with
the new values and the numbers of their characters.
-/

namespace Coast

open List Nat

theorem asLong_digitsText {n : Nat} (bounded : n < 2 ^ 63) (dflt : Int64) :
    asLong (digitsText n) dflt = (Int64.ofNat n, false) := by
  have value : digitsValue 10 (digitsText n) = n := digitsValue_digitsText n
  rw [asLong_digits (digitsText_ne_nil n) (isdigit_digitsText n) (by rwa [value]), value]

/-- The value of a slot: a text of characters that a `String` can hold. -/
def CharacterText (text : Bytes) (count : Nat) : Prop :=
  Utf8Text.Text text count ∧ text.length < 2 ^ 63

/-- An entry of a well-formed response: the number of characters, the other
fields, and the value. -/
structure ResponseEntry (delim : Byte) (nFields : Nat) where
  others : List Bytes
  value : Bytes
  count : Nat
  size : others.length + 2 = nFields
  free : ∀ field ∈ others, delim ∉ field
  characters : CharacterText value count

namespace ResponseEntry

variable {delim : Byte} {nFields : Nat}

def slots (entry : ResponseEntry delim nFields) : List Bytes :=
  digitsText entry.count :: entry.others ++ [entry.value]

def text (entry : ResponseEntry delim nFields) : Bytes := entry.slots.flatMap (· ++ [delim])

def textOf (entries : List (ResponseEntry delim nFields)) : Bytes := entries.flatMap text

theorem textOf_cons (entry : ResponseEntry delim nFields)
    (entries : List (ResponseEntry delim nFields)) :
    textOf (entry :: entries) = entry.text ++ textOf entries :=
  flatMap_cons

theorem text_ne_nil (entry : ResponseEntry delim nFields) (rest : Bytes) :
    entry.text ++ rest ≠ [] := by
  simp [text, slots]

theorem length_le_textOf (entries : List (ResponseEntry delim nFields)) :
    entries.length ≤ (textOf entries).length := by
  induction entries with
  | nil => exact le_refl _
  | cons entry entries ih =>
    have some_ := text_ne_nil entry []
    rw [append_nil, ← length_pos_iff] at some_
    rw [textOf_cons, length_append, length_cons]
    omega

theorem count_unique {entry other : ResponseEntry delim nFields}
    (same : entry.value = other.value) : entry.count = other.count := by
  have one := Utf8.distance_text entry.characters.1
  have two := Utf8.distance_text other.characters.1
  rw [same, two] at one
  exact (Except.ok.inj one).symm

theorem ext_text {entry other : ResponseEntry delim nFields} (others : entry.others = other.others)
    (value : entry.value = other.value) : entry.text = other.text := by
  rw [text, text, slots, slots, others, value, count_unique value]

end ResponseEntry

namespace MSAjaxFixFieldLengthResultMapper

open URLUtils

variable {delim : Byte}

theorem getFields_words {words : List Bytes}
    (free : ∀ word ∈ words, delim ∉ word) (rest : Bytes) :
    getFields delim words.length (words.flatMap (· ++ [delim]) ++ rest) = (words, rest) := by
  induction words with
  | nil => rfl
  | cons word words ih =>
    rw [forall_mem_cons] at free
    have next := ih free.2
    rw [flatMap_cons, append_assoc, append_assoc,
      length_cons, singleton_append, getFields_word free.1, next]

variable {value : Bytes} {count : Nat}

theorem getSubString_characters
    (characters : CharacterText value count) (beyond : Nat → Byte) (rest : Bytes) :
    getSubString beyond (value ++ rest) (Int64.ofNat count) = .ok value := by
  have bounded : count < 2 ^ 63 := lt_of_le_of_lt characters.1.le_length characters.2
  have same : (Int64.ofNat count).toInt.toNat = count := by
    rw [Int64.toInt_ofNat_of_lt bounded, Int.toNat_natCast]
  have result := Utf8.advance_text characters.1 rest
  have taken : (value ++ rest).length - rest.length = value.length := by
    rw [length_append, Nat.add_sub_cancel]
  simp only [getSubString, same, result, taken, take_left]

theorem digitsText_free (noDigit : isdigit delim = false)
    (n : Nat) : delim ∉ digitsText n := by
  intro member
  rw [isdigit_digitsText n delim member] at noDigit
  cases noDigit

theorem getEntryFromString_text {nFields : Nat} (noDigit : isdigit delim = false)
    (entry : ResponseEntry delim nFields) (beyond : Nat → Byte) (rest : Bytes) :
    getEntryFromString beyond (entry.text ++ rest) delim nFields = .ok (entry.slots, rest) := by
  have fields : nFields - 1 = (digitsText entry.count :: entry.others).length := by
    have size := entry.size
    rw [length_cons]
    omega
  have shape : entry.text ++ rest =
      (digitsText entry.count :: entry.others).flatMap (· ++ [delim]) ++
        (entry.value ++ delim :: rest) := by
    simp [ResponseEntry.text, ResponseEntry.slots]
  have free : ∀ word ∈ digitsText entry.count :: entry.others, delim ∉ word := by
    rw [forall_mem_cons]
    exact ⟨digitsText_free noDigit _, entry.free⟩
  have bounded : entry.count < 2 ^ 63 :=
    lt_of_le_of_lt entry.characters.1.le_length entry.characters.2
  have value := getSubString_characters entry.characters beyond (delim :: rest)
  have next : (entry.value.length : Int) + delimLen = ((entry.value.length + 1 : Nat) : Int) := rfl
  have left : trimFront (entry.value ++ delim :: rest)
      ((entry.value.length : Int) + delimLen) = rest := by
    rw [next, trimFront_nat, add_comm, drop_append]
    simp
  rw [getEntryFromString, fields, shape, getFields_words free]
  dsimp only
  rw [if_neg (cons_ne_nil _ _), headD_cons, asLong_digitsText bounded, value]
  show Except.ok (_, trimFront _ _) = _
  rw [left]
  rfl

def Counted (roaField : Option Bytes) : Prop :=
  ∃ token, roaField = some token ∧ token.headD 0 = addMarker

def ForLength (roaField : Option Bytes) : Prop :=
  ∃ token, roaField = some token ∧ token.headD 0 ≠ addMarker ∧ (asLong token (-1)).1 = lenMarker

/-- The length comes first, and only the value, which comes last, is
counted. -/
def LengthFirst (fieldList : List (Option Bytes)) : Prop :=
  ∃ first others last, fieldList = first :: others ++ [last] ∧
    ForLength first ∧ (∀ field ∈ others, ¬Counted field ∧ ¬ForLength field) ∧
    Counted last

theorem getStringLength_characters
    (characters : CharacterText value count) :
    getStringLength value = .ok count := by
  rw [getStringLength, Utf8.distance_text characters.1]

theorem adjustLoop_other {roaField : Option Bytes}
    (uncounted : ¬Counted roaField) (noLength : ¬ForLength roaField)
    (slot : Bytes) (fields : List (Option Bytes × Bytes)) (index len : Nat) (lenIdx : Option Nat) :
    adjustLoop ((roaField, slot) :: fields) index len lenIdx =
      adjustLoop fields (index + 1) len lenIdx := by
  cases roaField with
  | none => rfl
  | some token =>
    have unmarked : token.headD 0 ≠ addMarker := fun marked =>
      uncounted ⟨token, rfl, marked⟩
    have other : (asLong token (-1)).1 ≠ lenMarker := fun marked =>
      noLength ⟨token, rfl, unmarked, marked⟩
    rw [adjustLoop, if_neg unmarked, if_neg other]

theorem adjustLoop_others {others : List (Option Bytes)}
    (neither : ∀ field ∈ others, ¬Counted field ∧ ¬ForLength field)
    {slots : List Bytes} (size : others.length = slots.length)
    (fields : List (Option Bytes × Bytes)) (index len : Nat) (lenIdx : Option Nat) :
    adjustLoop (others.zip slots ++ fields) index len lenIdx =
      adjustLoop fields (index + slots.length) len lenIdx := by
  induction others generalizing slots index with
  | nil =>
    cases slots with
    | nil => rfl
    | cons slot slots => cases size
  | cons field others ih =>
    cases slots with
    | nil => cases size
    | cons slot slots =>
      rw [forall_mem_cons] at neither
      have size := Nat.succ.inj size
      have later := ih neither.2 size (index + 1)
      rw [zip_cons_cons, cons_append, adjustLoop_other neither.1.1 neither.1.2, later, length_cons,
        add_assoc, add_comm 1]

theorem adjustLengthField_value {fieldList : List (Option Bytes)}
    (lengthFirst : LengthFirst fieldList) {others : List Bytes}
    (size : others.length + 2 = fieldList.length)
    (characters : CharacterText value count) (length : Bytes) :
    adjustLengthField (length :: others ++ [value]) fieldList =
      .ok (digitsText count :: others ++ [value]) := by
  rcases lengthFirst with ⟨first, between, last, rfl,
    ⟨lengthToken, rfl, unmarked, marksLength⟩, neither, valueToken, rfl,
    marked⟩
  have same : between.length = others.length := by
    simp only [length_append, length_cons, length_nil] at size
    omega
  have zipped : (some lengthToken :: between ++ [some valueToken]).zip
      (length :: others ++ [value]) =
        (some lengthToken, length) :: (between.zip others ++ [(some valueToken, value)]) := by
    rw [cons_append, cons_append, zip_cons_cons, zip_append same]
    rfl
  have text : decimalText count = digitsText count := by
    rw [decimalText, if_neg (by omega), Int.natAbs_natCast]
  rw [adjustLengthField, zipped, adjustLoop, if_neg unmarked,
    if_pos marksLength, adjustLoop_others neither same, adjustLoop,
    if_pos marked, getStringLength_characters characters]
  show Except.ok (_ : List Bytes) = _
  rw [zero_add, text]
  rfl

section

variable {σ : Type} (this : MSAjaxFixFieldLengthResultMapper σ)

abbrev Entry : Type := ResponseEntry this.delim this.nFields

/-- The length is the first field and the value the last one, the delimiter is
no digit, and the mapper of the values puts texts of characters. -/
structure WritesTexts : Prop where
  lengthFirst : LengthFirst this.fieldList
  noDigit : isdigit this.delim = false
  characters : ∀ value ctx modified after,
    this.putValue value ctx = (some modified, after) → ∃ count, CharacterText modified count

/-- The entries with the values that the mapper leaves, from one context to
another one. -/
inductive Rewritten : σ → List this.Entry → List this.Entry → σ → Prop where
  | nil {ctx : σ} : Rewritten ctx [] [] ctx
  | kept {ctx between after : σ} {entry : this.Entry} {entries rewritten : List this.Entry} :
      this.putValue entry.value ctx = (none, between) → Rewritten between entries rewritten after →
          Rewritten ctx (entry :: entries) (entry :: rewritten) after
  | modified {ctx between after : σ} {entry other : this.Entry}
      {entries rewritten : List this.Entry} :
      this.putValue entry.value ctx = (some other.value, between) → other.others = entry.others →
          Rewritten between entries rewritten after →
            Rewritten ctx (entry :: entries) (other :: rewritten) after

/-- A text that is split into these entries. -/
inductive Splits (beyond : Nat → Byte) : Bytes → List (List Bytes) → Prop where
  | nil : Splits beyond [] []
  | cons {text rest : Bytes} {anyEntry : List Bytes} {entries : List (List Bytes)} : text ≠ [] →
      getEntryFromString beyond text this.delim this.nFields =
        .ok (anyEntry, rest) → Splits beyond rest entries → Splits beyond text (anyEntry :: entries)

variable {this}

section

variable (writes : this.WritesTexts)
include writes

theorem processEntry_slots (entry : this.Entry)
    (strOut : Bytes) (ctx : σ) :
    ∃ other after, this.processEntry entry.slots strOut ctx = .ok (strOut ++ other.text, after) ∧
      (this.putValue entry.value ctx = (none, after) ∧ other = entry ∨
        this.putValue entry.value ctx = (some other.value, after) ∧
          other.others = entry.others) := by
  have last : entry.slots.getLastD [] = entry.value := by
    rw [ResponseEntry.slots, getLastD_concat]
  have front : entry.slots.dropLast = digitsText entry.count :: entry.others := by
    rw [ResponseEntry.slots, dropLast_concat]
  rcases put : this.putValue entry.value ctx with ⟨modified, after⟩
  cases modified with
  | none =>
    have adjusted := adjustLengthField_value writes.lengthFirst entry.size
      entry.characters (digitsText entry.count)
    refine ⟨entry, after, ?_, .inl ⟨rfl, rfl⟩⟩
    rw [processEntry, last, put]
    dsimp only
    rw [ResponseEntry.slots, adjusted]
    rfl
  | some value =>
    rcases writes.characters _ _ _ _ put with ⟨count, characters⟩
    have adjusted := adjustLengthField_value writes.lengthFirst entry.size
      characters (digitsText entry.count)
    refine ⟨⟨entry.others, value, count, entry.size, entry.free,
      characters⟩, after, ?_, .inr ⟨rfl, rfl⟩⟩
    rw [processEntry, last, put]
    dsimp only
    rw [front, adjusted]
    rfl

theorem entryTurn_text (beyond : Nat → Byte)
    (entry : this.Entry) (rest strOut : Bytes) (ctx : σ) :
    ∃ other after, this.entryTurn beyond ⟨entry.text ++ rest, strOut, ctx⟩ =
        .ok ⟨rest, strOut ++ other.text, after⟩ ∧
      (this.putValue entry.value ctx = (none, after) ∧ other = entry ∨
        this.putValue entry.value ctx = (some other.value, after) ∧
          other.others = entry.others) := by
  rcases processEntry_slots writes entry strOut ctx with ⟨other, after, result, puts⟩
  have size : entry.slots.length = this.nFields := by
    rw [ResponseEntry.slots, length_append]
    exact entry.size
  refine ⟨other, after, ?_, puts⟩
  rw [entryTurn, getEntryFromString_text writes.noDigit]
  show (if entry.slots.length = this.nFields then _ else _) = _
  rw [if_pos size, result]
  rfl

theorem entryLoop_textOf (beyond : Nat → Byte)
    (entries : List this.Entry) (turns : Nat)
    (enough : entries.length ≤ turns) (strOut : Bytes) (ctx : σ) :
    ∃ rewritten after, this.Rewritten ctx entries rewritten after ∧ this.entryLoop beyond turns
          ⟨ResponseEntry.textOf entries, strOut, ctx⟩ =
        some (.ok ⟨[], strOut ++ ResponseEntry.textOf rewritten, after⟩) := by
  induction entries generalizing turns strOut ctx with
  | nil =>
    refine ⟨[], ctx, .nil, ?_⟩
    rw [this.entryLoop_end beyond rfl]
    simp [ResponseEntry.textOf]
  | cons entry entries ih =>
    cases turns with
    | zero => cases enough
    | succ turns =>
      rcases entryTurn_text writes beyond entry (ResponseEntry.textOf entries) strOut ctx with
        ⟨other, between, turn, puts⟩
      rcases ih turns (le_of_succ_le_succ enough) (strOut ++ other.text) between with
        ⟨rewritten, after, later, loop⟩
      refine ⟨other :: rewritten, after, ?_, ?_⟩
      · rcases puts with ⟨put, rfl⟩ | ⟨put, same⟩
        · exact .kept put later
        · exact .modified put same later
      · have some_ := entry.text_ne_nil (ResponseEntry.textOf entries)
        rw [ResponseEntry.textOf_cons, ResponseEntry.textOf_cons,
          this.entryLoop_turn beyond some_ turn, loop, append_assoc]

end

theorem splits_textOf (noDigit : isdigit this.delim = false)
    (beyond : Nat → Byte) (entries : List this.Entry) :
    this.Splits beyond (ResponseEntry.textOf entries) (entries.map ResponseEntry.slots) := by
  induction entries with
  | nil => exact .nil
  | cons entry entries ih =>
    exact .cons (entry.text_ne_nil _) (getEntryFromString_text noDigit entry beyond _) ih

theorem Rewritten.textOf_eq {ctx after : σ} {entries rewritten : List this.Entry}
    (rewrites : this.Rewritten ctx entries rewritten after)
    (same : rewritten.map ResponseEntry.value = entries.map ResponseEntry.value) :
    ResponseEntry.textOf rewritten = ResponseEntry.textOf entries := by
  induction rewrites with
  | nil => rfl
  | kept _ _ ih =>
    rw [map_cons, map_cons] at same
    have later := ih (List.cons.inj same).2
    rw [ResponseEntry.textOf_cons, ResponseEntry.textOf_cons, later]
  | modified _ others _ ih =>
    rw [map_cons, map_cons] at same
    have later := ih (List.cons.inj same).2
    have text := ResponseEntry.ext_text others (List.cons.inj same).1
    rw [ResponseEntry.textOf_cons, ResponseEntry.textOf_cons, later, text]

/-- The result of `DoPutAny` is a well-formed response again, which is taken
apart into the entries with the values that were put. -/
theorem doPutAny_textOf (writes : this.WritesTexts) (beyond : Nat → Byte)
    (entries : List this.Entry) (ctx : σ) :
    ∃ rewritten after, this.Rewritten ctx entries rewritten after ∧
      this.doPutAny beyond (ResponseEntry.textOf entries).length
          (ResponseEntry.textOf entries) ctx =
        some (.ok (ResponseEntry.textOf rewritten, this.putContentLength
          (ResponseEntry.textOf rewritten).length after)) ∧
      this.Splits beyond (ResponseEntry.textOf rewritten)
        (rewritten.map ResponseEntry.slots) ∧
      (rewritten.map ResponseEntry.value = entries.map ResponseEntry.value →
        ResponseEntry.textOf rewritten = ResponseEntry.textOf entries) := by
  rcases entryLoop_textOf writes beyond entries _
    (ResponseEntry.length_le_textOf entries) [] ctx with
    ⟨rewritten, after, rewrites, loop⟩
  have some_ : 0 < this.nFields := by
    rcases writes.lengthFirst with ⟨first, others, last, same, -⟩
    rw [nFields, same]
    exact succ_pos _
  refine ⟨rewritten, after, rewrites, ?_,
    splits_textOf writes.noDigit beyond rewritten, rewrites.textOf_eq⟩
  rw [doPutAny, if_pos some_, loop]
  rfl

/-- The value of the documented fields becomes a shorter one. -/
def shortening : MSAjaxFixFieldLengthResultMapper Unit where
  fieldList := documented.fieldList
  delim := documented.delim
  putValue := fun _ ctx => (some [0xc3, 0xa4], ctx)
  putContentLength := fun _ ctx => ctx

def sampleEntry : shortening.Entry where
  others := [lit "x", lit "y"]
  value := lit "a|b"
  count := 3
  size := rfl
  free := by decide +kernel
  characters := ⟨Utf8Text.text_of_ascii (by decide +kernel), by decide +kernel⟩

theorem star_neither : ¬Counted (some (lit "*")) ∧ ¬ForLength (some (lit "*")) := by
  constructor
  · intro counted
    rcases counted with ⟨_, ⟨⟩, marked⟩
    exact absurd marked (by decide +kernel)
  · intro forLength
    rcases forLength with ⟨_, ⟨⟩, -, marked⟩
    exact absurd marked (by decide +kernel)

theorem writesTexts_shortening : shortening.WritesTexts where
  lengthFirst := ⟨some (lit "0"), [some (lit "*"), some (lit "*")],
    some (lit "+"), rfl, ⟨_, rfl, by decide +kernel⟩,
    forall_mem_cons.mpr ⟨star_neither, forall_mem_singleton.mpr star_neither⟩,
    ⟨_, rfl, by decide +kernel⟩⟩
  noDigit := by decide +kernel
  characters := by
    intro value ctx modified after put
    cases put
    exact ⟨1, .cons (.two (by decide) (by decide) ⟨by decide, by decide⟩) .nil, by decide⟩

theorem doPutAny_textOf_shortening :
    ∃ rewritten after, shortening.Rewritten () [sampleEntry] rewritten after ∧
      shortening.doPutAny (fun _ => 0) (ResponseEntry.textOf [sampleEntry]).length
          (ResponseEntry.textOf [sampleEntry]) () =
        some (.ok (ResponseEntry.textOf rewritten,
          shortening.putContentLength (ResponseEntry.textOf rewritten).length after)) := by
  rcases doPutAny_textOf writesTexts_shortening (fun _ => 0) [sampleEntry] ()
    with ⟨rewritten, after, rewrites, result, -⟩
  exact ⟨rewritten, after, rewrites, result⟩

end

end MSAjaxFixFieldLengthResultMapper

end Coast
