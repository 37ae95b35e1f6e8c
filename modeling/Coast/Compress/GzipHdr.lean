import Coast.Base.IStream
import Coast.Compress.ZipOStream
import Coast.Time.TimeStamp

/-!
# The header of a gzip file

`GzipHdr` is written and read as the image of its first ten bytes, followed by
the fields that its flags announce.
-/

namespace Coast

/-- The bits of `Flags` that say which optional fields follow. -/
inductive HdrFlag where
  | eFHCRC
  | eFEXTRA
  | eFNAME
  | eFCOMMENT
  deriving DecidableEq, Repr

def HdrFlag.bit : HdrFlag → Byte
  | .eFHCRC => 0x02
  | .eFEXTRA => 0x04
  | .eFNAME => 0x08
  | .eFCOMMENT => 0x10

/-- The fields of a gzip header as `GzipHdr` keeps them. -/
structure GzipHdr where
  ID1 : Byte
  ID2 : Byte
  CompressionMethod : Byte
  Flags : Byte
  /-- Four bytes. -/
  ModificationTime : Bytes
  ExtraFlags : Byte
  OperatingSystem : Byte
  XLEN : Nat
  ExtraField : Bytes
  FileName : Bytes
  Comment : Bytes
  CRC16 : Nat
  fbValid : Bool
  deriving DecidableEq, Repr

namespace GzipHdr

def create : GzipHdr where
  ID1 := 0x1f
  ID2 := 0x8b
  CompressionMethod := 8
  Flags := 0
  ModificationTime := [0, 0, 0, 0]
  ExtraFlags := 0
  OperatingSystem := 3
  XLEN := 0
  ExtraField := []
  FileName := []
  Comment := []
  CRC16 := 0
  fbValid := true

def has (this : GzipHdr) (flag : HdrFlag) : Bool := this.Flags &&& flag.bit ≠ 0

def isValid (this : GzipHdr) : Bool := this.fbValid && this.ID1 = 0x1f && this.ID2 = 0x8b

def valueOf : Bytes → Nat
  | [] => 0
  | byte :: bytes => byte.toNat + 256 * valueOf bytes

/-- `GetModificationTime` takes the eight bytes of a `long` from the four of
the field and what follows it in the structure. -/
def getModificationTime (this : GzipHdr) : TimeStamp :=
  let bytes := this.ModificationTime ++
    [this.ExtraFlags, this.OperatingSystem] ++ ZipOStreamBuf.longBytes 2 this.XLEN
  TimeStamp.ofTimeT (BitVec.ofNat 64 (valueOf bytes)).toInt

def setModificationTime (this : GzipHdr) (aStamp : TimeStamp) : GzipHdr :=
  { this with
    ModificationTime := ZipOStreamBuf.longBytes 4 (BitVec.ofInt 64 aStamp.asLong).toNat }

def image (this : GzipHdr) : Bytes :=
  [this.ID1, this.ID2, this.CompressionMethod, this.Flags] ++
    this.ModificationTime ++ [this.ExtraFlags, this.OperatingSystem]

/-- The fixed fields are copied over, as far as there are bytes. -/
def withImage (this : GzipHdr) (bytes : Bytes) : GzipHdr :=
  let image := bytes ++ this.image.drop bytes.length
  { this with
    ID1 := image.getD 0 0
    ID2 := image.getD 1 0
    CompressionMethod := image.getD 2 0
    Flags := image.getD 3 0
    ModificationTime := (image.drop 4).take 4
    ExtraFlags := image.getD 8 0
    OperatingSystem := image.getD 9 0 }

variable (z : Zlib)

def field (this : GzipHdr) (flag : HdrFlag) (text : Bytes) : Bytes :=
  if this.has flag then text else []

def strHeader (this : GzipHdr) : Bytes :=
  this.image ++ this.field .eFEXTRA (ZipOStreamBuf.longBytes 2 this.XLEN ++ this.ExtraField) ++
    this.field .eFNAME (this.FileName ++ [0]) ++
    this.field .eFCOMMENT (this.Comment ++ [0])

def write (this : GzipHdr) : Bytes × GzipHdr :=
  if this.has .eFHCRC then
    let CRC16 := z.crc32 0 this.strHeader % 2 ^ 16
    (this.strHeader ++ ZipOStreamBuf.longBytes 2 CRC16, { this with CRC16 := CRC16 })
  else (this.strHeader, this)

/-- What `operator>>` keeps between the fields. -/
structure Reading where
  is : IStream
  header : GzipHdr
  strHeader : Bytes
  bCont : Bool

def getShort (is : IStream) (value : Nat) : Nat × IStream :=
  let (bytes, is) := is.readBytes 2
  (if is.eof then value else valueOf bytes, is)

/-- The extra field: its length, then as many bytes. -/
def readExtra (r : Reading) : Reading :=
  if r.bCont && r.header.has .eFEXTRA then
    let (XLEN, is) := getShort r.is r.header.XLEN
    let header := { r.header with XLEN := XLEN }
    let strHeader := r.strHeader ++ ZipOStreamBuf.longBytes 2 XLEN
    if is.eof then ⟨is, header, strHeader, false⟩
    else
      let (field, is) := is.readBytes XLEN
      if is.eof then ⟨is, header, strHeader, false⟩
      else
        ⟨is, { header with ExtraField := field }, strHeader ++ field, true⟩
  else r

def readText (r : Reading) : Bytes × Reading :=
  let (text, stop, is) := r.is.collect (· ≠ 0)
  (text, { r with
    is := is
    strHeader := r.strHeader ++ text ++ [0]
    bCont := stop.isSome })

def readFileName (r : Reading) : Reading :=
  if r.bCont && r.header.has .eFNAME then
    let (text, r) := readText r
    { r with header := { r.header with FileName := text } }
  else r

def readComment (r : Reading) : Reading :=
  if r.bCont && r.header.has .eFCOMMENT then
    let (text, r) := readText r
    { r with header := { r.header with Comment := text } }
  else r

/-- The check sum is compared unless it was cut off. -/
def readCRC (r : Reading) : Reading :=
  if r.bCont && r.header.has .eFHCRC then
    let (CRC16, is) := getShort r.is r.header.CRC16
    { r with
      is := is
      header := { r.header with CRC16 := CRC16 }
      bCont := is.eof || decide (z.crc32 0 r.strHeader % 2 ^ 16 = CRC16) }
  else r

/-- The fixed fields, then the optional ones in the order of the format. -/
def read (is : IStream) (this : GzipHdr) : IStream × GzipHdr :=
  let (bytes, is) := is.readBytes 10
  let header := { this.withImage bytes with fbValid := !is.eof }
  if is.eof then (is, header)
  else
    let r := readCRC z (readComment (readFileName (readExtra
      ⟨is, header, header.image, header.isValid⟩)))
    (r.is, { r.header with fbValid := r.bCont })

end GzipHdr

/-- The part of a `ZipOStreamBuf` that the header is set in. -/
structure HeaderState where
  isInitialized : Bool
  fHeader : GzipHdr
  deriving DecidableEq, Repr

namespace HeaderState

def create : HeaderState := ⟨false, .create⟩

def mark (header : GzipHdr) (flag : HdrFlag) (present : Bool) : GzipHdr :=
  { header with
    Flags := if present then header.Flags ||| flag.bit else header.Flags ^^^ flag.bit }

def change (this : HeaderState) (set : GzipHdr → GzipHdr) : HeaderState :=
  if this.isInitialized then this
  else { this with fHeader := set this.fHeader }

def setHeaderCRC (bFlag : Bool) (this : HeaderState) : HeaderState :=
  this.change fun header => mark header .eFHCRC bFlag

def setExtraField (strBuf : Bytes) (this : HeaderState) : HeaderState :=
  this.change fun header =>
    { mark header .eFEXTRA (strBuf ≠ []) with
      XLEN := strBuf.length % 2 ^ 16
      ExtraField := strBuf }

def setFilename (strFilename : Bytes) (this : HeaderState) : HeaderState :=
  this.change fun header =>
    { mark header .eFNAME (strFilename ≠ []) with FileName := strFilename }

def setComment (strComment : Bytes) (this : HeaderState) : HeaderState :=
  this.change fun header =>
    { mark header .eFCOMMENT (strComment ≠ []) with Comment := strComment }

def setModificationTime (aStamp : TimeStamp) (this : HeaderState) : HeaderState :=
  this.change fun header => header.setModificationTime aStamp

end HeaderState

end Coast
