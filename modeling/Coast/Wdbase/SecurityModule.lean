import Coast.Io.URLUtils
import Coast.Security.Base64
import Coast.Security.BlowfishScrambler
import Coast.Security.MD5
import Coast.Security.TableRoundTrip

/-!
# The security module

A state is compressed, signed, scrambled and encoded.  Each layer writes the
name of its item and a `-` in front of its text; the way back finds the item
by this name.
-/

namespace Coast

open Security Heap

inductive Compressor where
  | standard
  | table (tables : TableCompressor) (sound : tables.Sound)

namespace Compressor

def doCompress : Compressor → Anything → Bytes
  | standard, dataIn => printOn dataIn false
  | table tables _, dataIn => tables.doCompress dataIn

/-- `Compressor::DoExpand` does not look at the result of `Import`. -/
def doExpand (env : ParserEnv) (depth : Nat) : Compressor → Bytes → Imported
  | standard, scrambledText =>
    let dataOut := importText env depth false scrambledText
    ⟨true, dataOut.any, dataOut.heap⟩
  | table tables _, scrambledText =>
    tables.doExpand env depth scrambledText

end Compressor

/-- The digests of the `MD5Signer` for a message and a key.  Where `uint32` has
8 bytes `Final` works behind the block (`MD5Context.final_wide`), and `DoCheck`
may find another digest than `DoSign`. -/
structure MD5 where
  wide : Bool
  signed : MD5Signer.Digest
  checked : MD5Signer.Digest
  same : wide = false → checked = signed

namespace SecurityItem

/-- The classes that are registered as items, with the keys of an object. -/
inductive Kind where
  /-- `Scrambler`, `Encoder` or `Signer`, which leave a text as it is -/
  | securityItem
  | urlEncoder
  | base64 (basis : Base64.Basis)
  | blowfishScrambler (fKey : BlowfishKey)
  | blowfishCBCScrambler (fKey : BlowfishKey) (fIvec : BFLong × BFLong)
  | md5Signer (fKey : Bytes)
  | compressor (compressor : Compressor)

namespace Kind

variable (md5 : MD5)

/-- What each kind of encoder makes of a text. -/
def doEncode (nextRandomNumber : Nat → BitVec 64) : Kind → Bytes → Bytes
  | securityItem, cleartext => cleartext
  | urlEncoder, cleartext => URLUtils.urlEncode cleartext []
  | base64 basis, cleartext => Base64.doEncode basis cleartext
  | blowfishScrambler fKey, cleartext => Blowfish.doEncode fKey cleartext
  | blowfishCBCScrambler fKey fIvec, cleartext =>
    Blowfish.doEncodeCBC fKey fIvec nextRandomNumber cleartext
  | md5Signer fKey, cleartext => MD5Signer.doSign md5.signed fKey cleartext
  | compressor _, cleartext => cleartext

/-- Whether the text could be decoded, and to what. -/
def doDecode : Kind → Bytes → Bool × Bytes
  | securityItem, scrambledText => (true, scrambledText)
  | urlEncoder, scrambledText => (true, URLUtils.urlDecode scrambledText true)
  | base64 _, scrambledText => Base64.doDecode scrambledText
  | blowfishScrambler fKey, scrambledText =>
    Blowfish.doDecode fKey scrambledText
  | blowfishCBCScrambler fKey fIvec, scrambledText =>
    Blowfish.doDecodeCBC fKey fIvec scrambledText
  | md5Signer fKey, scrambledText =>
    MD5Signer.doCheck md5.checked fKey scrambledText
  | compressor _, scrambledText => (true, scrambledText)

end Kind

end SecurityItem

structure SecurityItem where
  fName : Bytes
  kind : SecurityItem.Kind

/-- `FindCompressor` finds compressors only. -/
def SecurityItem.asCompressor (item : SecurityItem) : Option Compressor :=
  match item.kind with
  | .compressor compressor => some compressor
  | _ => none

/-- `GetNamePrefixFromEncodedText`.  Without a delimiter the NUL behind the
text belongs to the name. -/
def getNamePrefixFromEncodedText (encodedText : Bytes) : Bytes :=
  (encodedText ++ [0]).takeWhile fun c => c ≠ ch ':' && c ≠ ch '-'

/-- What `encodedText << name << '-' << text` writes and the decoders skip. -/
def behindNamePrefix (name encodedText : Bytes) : Bytes := encodedText.drop (name.length + 1)

/-- The items by name, and the names that the configuration sets. -/
structure SecurityModule where
  /-- the registry of the items by name -/
  items : Bytes → Option SecurityItem
  md5 : MD5
  fgScrambler : Bytes
  fgEncoder : Bytes
  fgSigner : Bytes
  fgCompressor : Bytes

/-- What the random generator returns for each layer. -/
structure RandomNumbers where
  signer : Nat → BitVec 64
  scrambler : Nat → BitVec 64
  encoder : Nat → BitVec 64

namespace SecurityModule

variable (this : SecurityModule)

def findSecurityItem (name : Bytes) : Option SecurityItem := this.items (cstr name)

def findSecurityItemWithDefault (name : Bytes) : Option SecurityItem :=
  (this.findSecurityItem name).or (this.findSecurityItem (lit "SecurityItem"))

def encode (nextRandomNumber : Nat → BitVec 64) (itemtouse cleartext : Bytes) : Bytes :=
  match this.findSecurityItemWithDefault itemtouse with
  | some encoder =>
    encoder.fName ++ ch '-' :: encoder.kind.doEncode this.md5 nextRandomNumber cleartext
  | none => cstr itemtouse ++ [ch '-']

/-- The name in front of the text says which encoder decodes it. -/
def decode (encodedText : Bytes) : Bool × Bytes :=
  let encodername := getNamePrefixFromEncodedText encodedText
  if encodername.length = 0 then (false, [])
  else
    match this.findSecurityItemWithDefault encodername with
    | some encoder =>
      encoder.kind.doDecode this.md5 (behindNamePrefix encodername encodedText)
    | none => (false, [])

/-- The text of the compressor, behind its name. -/
def compress (theName : Bytes) (cleartext : Anything) : Bytes :=
  match this.findSecurityItem theName with
  | some item =>
    match item.asCompressor with
    | some compressor =>
      item.fName ++ ch '-' :: compressor.doCompress cleartext
    | none => []
  | none => []

/-- The name in front of the text says which compressor expands it. -/
def expand (env : ParserEnv) (depth : Nat) (encodedText : Bytes) : Imported :=
  let compressorname := getNamePrefixFromEncodedText encodedText
  if compressorname.length = 0 then ⟨false, none, []⟩
  else
    match (this.findSecurityItem compressorname).bind
        SecurityItem.asCompressor with
    | some compressor =>
      compressor.doExpand env depth (behindNamePrefix compressorname encodedText)
    | none => ⟨false, none, []⟩

/-- Compressed, signed, scrambled and encoded, each name in front. -/
def scrambleState (random : RandomNumbers) (state : Anything) : Bytes :=
  let compressedText := this.compress this.fgCompressor state
  if 0 < compressedText.length then
    let signedText := this.encode random.signer this.fgSigner compressedText
    let cryptText := this.encode random.scrambler this.fgScrambler signedText
    this.encode random.encoder this.fgEncoder cryptText
  else []

/-- Decoding twice, the signature, and expanding. -/
def unscrambleState (env : ParserEnv) (depth : Nat) (s : Bytes) : Imported :=
  match this.decode s with
  | (false, _) => ⟨false, none, []⟩
  | (true, crypt) =>
    match this.decode crypt with
    | (false, _) => ⟨false, none, []⟩
    | (true, signedText) =>
      match this.decode signedText with
      | (false, _) => ⟨false, none, []⟩
      | (true, compressedText) => this.expand env depth compressedText

end SecurityModule

end Coast
