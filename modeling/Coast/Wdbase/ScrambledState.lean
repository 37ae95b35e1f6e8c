import Coast.Wdbase.SecurityModule

/-!
# The round trip of a scrambled state

Every layer is undone by the item whose name it wrote, so a state comes back
exactly when the compressor keeps it.
-/

namespace Coast

open Security Heap List

namespace SecurityItem.Kind

/-- The texts that come back from an item: a `URLEncoder` makes a blank of a
`+`, and MD5 needs words of 4 bytes. -/
def Reads (md5 : MD5) : Kind → Bytes → Prop
  | urlEncoder, cleartext => ch '+' ∉ cleartext
  | md5Signer _, _ => md5.wide = false
  | _, _ => True

theorem doDecode_doEncode {md5 : MD5} (nextRandomNumber : Nat → BitVec 64) {kind : Kind}
    {cleartext : Bytes} (nonempty : cleartext ≠ []) (reads : kind.Reads md5 cleartext) :
    kind.doDecode md5 (kind.doEncode md5 nextRandomNumber cleartext) = (true, cleartext) := by
  cases kind with
  | securityItem => rfl
  | urlEncoder =>
    rw [doEncode, doDecode, URLUtils.urlDecode_urlEncode not_mem_nil,
      (URLUtils.convert_eq_self_iff cleartext).mpr reads]
  | base64 basis => exact Base64.doDecode_doEncode basis cleartext
  | blowfishScrambler fKey => exact Blowfish.doDecode_doEncode fKey cleartext
  | blowfishCBCScrambler fKey fIvec =>
    exact Blowfish.doDecodeCBC_doEncodeCBCWith fKey fIvec _ cleartext
      (Blowfish.length_generateRandomString nextRandomNumber _)
  | md5Signer fKey =>
    rw [doEncode, doDecode, md5.same reads]
    exact MD5Signer.doCheck_doSign md5.signed fKey nonempty
  | compressor => rfl

end SecurityItem.Kind

/-- A name that can be read from the front of a text. -/
structure Delimited (name : Bytes) : Prop where
  nonempty : name ≠ []
  nulFree : NulFree name
  undelimited : ∀ c ∈ name, c ≠ ch ':' ∧ c ≠ ch '-'

theorem getNamePrefixFromEncodedText_append {name : Bytes}
    (delimited : Delimited name) (text : Bytes) :
    getNamePrefixFromEncodedText (name ++ ch '-' :: text) = name := by
  unfold getNamePrefixFromEncodedText
  rw [append_assoc, takeWhile_append_of_pos]
  · simp
  · intro c member
    simpa using delimited.undelimited c member

theorem behindNamePrefix_append (name text : Bytes) :
    behindNamePrefix name (name ++ ch '-' :: text) = text := by
  unfold behindNamePrefix
  rw [drop_append]
  simp

namespace SecurityModule

variable (this : SecurityModule)

/-- The item is found under the configured name and under its own name, which
can be read from a text. -/
structure Registered (name : Bytes) (item : SecurityItem) : Prop where
  found : this.findSecurityItem name = some item
  known : this.findSecurityItem item.fName = some item
  delimited : Delimited item.fName

variable {this}

variable {name : Bytes} {item : SecurityItem}

theorem Registered.withDefault (found : this.findSecurityItem name = some item) :
    this.findSecurityItemWithDefault name = some item := by
  rw [findSecurityItemWithDefault, found, Option.some_or]

section

variable (registered : this.Registered name item)
include registered

section

variable (nextRandomNumber : Nat → BitVec 64)
include nextRandomNumber

theorem encode_eq (cleartext : Bytes) :
    this.encode nextRandomNumber name cleartext =
      item.fName ++ ch '-' :: item.kind.doEncode this.md5 nextRandomNumber cleartext := by
  rw [encode, Registered.withDefault registered.found]

theorem encode_ne_nil (cleartext : Bytes) : this.encode nextRandomNumber name cleartext ≠ [] := by
  rw [encode_eq registered]
  simp

theorem decode_encode {cleartext : Bytes}
    (nonempty : cleartext ≠ []) (reads : item.kind.Reads this.md5 cleartext) :
    this.decode (this.encode nextRandomNumber name cleartext) = (true, cleartext) := by
  have named : item.fName.length ≠ 0 := fun zero =>
    registered.delimited.nonempty (length_eq_zero_iff.mp zero)
  rw [encode_eq registered, decode, getNamePrefixFromEncodedText_append registered.delimited]
  simp only [named, if_false, Registered.withDefault registered.known, behindNamePrefix_append]
  exact SecurityItem.Kind.doDecode_doEncode _ nonempty reads

end

theorem compress_eq {compressor : Compressor}
    (isCompressor : item.asCompressor = some compressor) (state : Anything) :
    this.compress name state = item.fName ++ ch '-' :: compressor.doCompress state := by
  rw [compress, registered.found]
  simp only [isCompressor]

theorem expand_compress {compressor : Compressor}
    (isCompressor : item.asCompressor = some compressor)
    (env : ParserEnv) (depth : Nat) (state : Anything) :
    this.expand env depth (this.compress name state) =
      compressor.doExpand env depth (compressor.doCompress state) := by
  have named : item.fName.length ≠ 0 := fun zero =>
    registered.delimited.nonempty (length_eq_zero_iff.mp zero)
  rw [compress_eq registered isCompressor, expand,
    getNamePrefixFromEncodedText_append registered.delimited]
  simp only [named, if_false, registered.known, Option.bind_some,
    isCompressor, behindNamePrefix_append]

end

variable (this)

/-- The configured items, all of them registered. -/
structure Layers where
  compressorItem : SecurityItem
  compressor : Compressor
  signer : SecurityItem
  scrambler : SecurityItem
  encoder : SecurityItem
  isCompressor : compressorItem.asCompressor = some compressor
  compressorRegistered : this.Registered this.fgCompressor compressorItem
  signerRegistered : this.Registered this.fgSigner signer
  scramblerRegistered : this.Registered this.fgScrambler scrambler
  encoderRegistered : this.Registered this.fgEncoder encoder

variable {this}

/-- Every layer gets a text that comes back from its item. -/
structure Layers.Read (layers : this.Layers) (random : RandomNumbers)
    (state : Anything) : Prop where
  signer : layers.signer.kind.Reads this.md5 (this.compress this.fgCompressor state)
  scrambler : layers.scrambler.kind.Reads this.md5
    (this.encode random.signer this.fgSigner (this.compress this.fgCompressor state))
  encoder : layers.encoder.kind.Reads this.md5
    (this.encode random.scrambler this.fgScrambler
      (this.encode random.signer this.fgSigner (this.compress this.fgCompressor state)))

theorem unscrambleState_scrambleState_eq (layers : this.Layers) {random : RandomNumbers}
    {state : Anything} (read : layers.Read random state) (env : ParserEnv) (depth : Nat) :
    this.unscrambleState env depth (this.scrambleState random state) =
      layers.compressor.doExpand env depth (layers.compressor.doCompress state) := by
  have nonempty : this.compress this.fgCompressor state ≠ [] := by
    rw [compress_eq layers.compressorRegistered layers.isCompressor]
    simp
  rw [scrambleState, if_pos (length_pos_iff.mpr nonempty), unscrambleState,
    decode_encode layers.encoderRegistered _
      (encode_ne_nil layers.scramblerRegistered _ _) read.encoder]
  simp only [
    decode_encode layers.scramblerRegistered _
      (encode_ne_nil layers.signerRegistered _ _) read.scrambler,
    decode_encode layers.signerRegistered _ nonempty read.signer]
  exact expand_compress layers.compressorRegistered layers.isCompressor env depth state

/-- `UnscrambleState` returns true and the state is the one that was
scrambled. -/
def RestoresState (this : SecurityModule) (random : RandomNumbers)
    (env : ParserEnv) (depth : Nat) (state : PlainAnything) : Prop :=
  let restored := this.unscrambleState env depth (this.scrambleState random state)
  restored.ok = true ∧ Unfolds restored.heap state restored.any

end SecurityModule

def Compressor.Keeps : Compressor → Anything → Prop
  | standard, state => state.LongsApart
  | table tables _, state =>
    state = TableCompressor.anyOf state.slots ∧
      (∀ slot ∈ state.slots, tables.keeps slot = true ∧ tables.ToldApart slot) ∧
      state.LongsApart

theorem Compressor.doExpand_doCompress_iff (compressor : Compressor)
    (env : ParserEnv) (depth : Nat) (state : PlainAnything) :
    ((compressor.doExpand env depth (compressor.doCompress state)).ok = true ∧
      Unfolds (compressor.doExpand env depth (compressor.doCompress state)).heap
        state
        (compressor.doExpand env depth
          (compressor.doCompress state)).any) ↔
      compressor.Keeps state := by
  cases compressor with
  | standard =>
    refine Iff.trans ?_ (unfolds_printOn_compact_iff env depth state)
    exact ⟨fun restored => restored.2, fun seen => ⟨rfl, seen⟩⟩
  | table tables sound =>
    exact TableCompressor.restores_iff sound env depth state

namespace SecurityModule

/-- A state is restored exactly when the configured compressor keeps it: the
signer, the scrambler and the encoder are undone whenever no `URLEncoder`
gets a `+` and an `MD5Signer` has words of 4 bytes. -/
theorem unscrambleState_scrambleState_iff (this : SecurityModule)
    (layers : this.Layers) (random : RandomNumbers) (env : ParserEnv)
    (depth : Nat) (state : PlainAnything) (read : layers.Read random state) :
    this.RestoresState random env depth state ↔ layers.compressor.Keeps state := by
  unfold RestoresState
  rw [unscrambleState_scrambleState_eq layers read]
  exact layers.compressor.doExpand_doCompress_iff env depth state

/-- The items that the module registers itself, and the `URLEncoder`. -/
def standardItems : List SecurityItem :=
  [⟨lit "Compressor", .compressor .standard⟩,
    ⟨lit "Signer", .securityItem⟩, ⟨lit "Scrambler", .securityItem⟩,
    ⟨lit "Encoder", .securityItem⟩, ⟨lit "URLEncoder", .urlEncoder⟩]

/-- The module without a configuration but for the encoder. -/
def standardModule (fgEncoder : Bytes) : SecurityModule where
  items name := standardItems.find? (·.fName = name)
  md5 := ⟨false, fun _ _ => Vector.replicate 16 0, fun _ _ => Vector.replicate 16 0, fun _ => rfl⟩
  fgScrambler := lit "Scrambler"
  fgEncoder := fgEncoder
  fgSigner := lit "Signer"
  fgCompressor := lit "Compressor"

theorem standardModule_registered (fgEncoder : Bytes) (item : SecurityItem)
    (member : item ∈ standardItems) :
    (standardModule fgEncoder).Registered item.fName item := by
  simp only [standardItems, mem_cons, not_mem_nil, or_false] at member
  rcases member with rfl | rfl | rfl | rfl | rfl <;>
    exact ⟨rfl, rfl, ⟨by decide, by decide, by decide⟩⟩

def standardLayers (encoder : SecurityItem) (member : encoder ∈ standardItems) :
    (standardModule encoder.fName).Layers where
  compressorItem := ⟨lit "Compressor", .compressor .standard⟩
  compressor := .standard
  signer := ⟨lit "Signer", .securityItem⟩
  scrambler := ⟨lit "Scrambler", .securityItem⟩
  encoder := encoder
  isCompressor := rfl
  compressorRegistered := standardModule_registered _
    ⟨lit "Compressor", .compressor .standard⟩ (by simp [standardItems])
  signerRegistered := standardModule_registered _
    ⟨lit "Signer", .securityItem⟩ (by simp [standardItems])
  scramblerRegistered := standardModule_registered _
    ⟨lit "Scrambler", .securityItem⟩ (by simp [standardItems])
  encoderRegistered := standardModule_registered _ encoder member

def urlLayers : (standardModule (lit "URLEncoder")).Layers :=
  standardLayers ⟨lit "URLEncoder", .urlEncoder⟩ (by simp [standardItems])

def plainLayers : (standardModule (lit "Encoder")).Layers :=
  standardLayers ⟨lit "Encoder", .securityItem⟩ (by simp [standardItems])

def noRandomNumbers : RandomNumbers := ⟨fun _ => 0, fun _ => 0, fun _ => 0⟩

/-- `{ /Page "Start" /a2 5 }` comes back through a `URLEncoder`. -/
theorem unscrambleState_scrambleState_startPage :
    (standardModule (lit "URLEncoder")).RestoresState noRandomNumbers
      ⟨fun _ => none, fun _ => none⟩ 0 TableCompressor.startPage := by
  have plusFree : ch '+' ∉
      (standardModule (lit "URLEncoder")).encode noRandomNumbers.scrambler (lit "Scrambler")
        ((standardModule (lit "URLEncoder")).encode noRandomNumbers.signer (lit "Signer")
          ((standardModule (lit "URLEncoder")).compress (lit "Compressor")
            TableCompressor.startPage)) := by
    decide +kernel
  exact (unscrambleState_scrambleState_iff
    (standardModule (lit "URLEncoder")) urlLayers noRandomNumbers
    ⟨fun _ => none, fun _ => none⟩ 0 TableCompressor.startPage
    ⟨trivial, trivial, plusFree⟩).mpr ⟨trivial, id, trivial, id, trivial⟩

/-- Two numbers in an array are not restored. -/
theorem not_unscrambleState_scrambleState_twoLongs :
    ¬ ∀ (this : SecurityModule) (_ : this.Layers)
      (random : RandomNumbers) (env : ParserEnv) (depth : Nat)
      (state : PlainAnything),
      this.RestoresState random env depth state := by
  intro always
  have restored := always _ plainLayers noRandomNumbers ⟨fun _ => none, fun _ => none⟩ 0 twoLongs
  unfold RestoresState at restored
  rw [unscrambleState_scrambleState_eq plainLayers ⟨trivial, trivial, trivial⟩] at restored
  have apart := (unfolds_printOn_compact_iff ⟨fun _ => none, fun _ => none⟩
    0 twoLongs).mp restored.2
  simp [twoLongs, Anything.LongsApart, Anything.LongsApartSlots, Anything.LongsMeet] at apart

end SecurityModule

end Coast
