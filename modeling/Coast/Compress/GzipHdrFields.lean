import Coast.Compress.GzipHdr
import Coast.Compress.ZipTrailer
import Mathlib.Tactic.Ring

/-!
# What is read of a header that was written

Each optional field is read back from what was written for it, and the stream
is left behind it.
-/

namespace Coast

open List

namespace GzipHdr

variable (z : Zlib)

theorem valueOf_longBytes (n value : Nat) :
    valueOf (ZipOStreamBuf.longBytes n value) = value % 256 ^ n := by
  induction n generalizing value with
  | zero => rw [ZipOStreamBuf.longBytes, valueOf, pow_zero, Nat.mod_one]
  | succ n ih =>
    have byte : (BitVec.ofNat 8 value).toNat = value % 256 := BitVec.toNat_ofNat value 8
    rw [ZipOStreamBuf.longBytes, valueOf, ih, byte, pow_succ', Nat.mod_mul]

theorem valueOf_append (first second : Bytes) :
    valueOf (first ++ second) = valueOf first + 256 ^ first.length * valueOf second := by
  induction first with
  | nil => rw [nil_append, valueOf, length_nil, pow_zero, Nat.one_mul, Nat.zero_add]
  | cons byte first ih =>
    rw [cons_append, valueOf, valueOf, ih, length_cons, pow_succ']
    ring

theorem getShort_at (before rest : Bytes) (old : Nat) {value : Nat} (small : value < 2 ^ 16) :
    getShort (IStream.at_ before
        (ZipOStreamBuf.longBytes 2 value ++ rest)) old =
      (value, IStream.at_ ((ZipOStreamBuf.longBytes 2 value).reverse ++ before) rest) := by
  have same : value % 256 ^ 2 = value := Nat.mod_eq_of_lt small
  rw [getShort, IStream.readBytes_at_append before _ rest (ZipIStreamBuf.longBytes_length 2 value)]
  simp only [IStream.eof_at, Bool.false_eq_true, if_false, valueOf_longBytes, same]

def withExtra (this : GzipHdr) (text : Bytes) : GzipHdr :=
  if this.has .eFEXTRA then
    { this with XLEN := text.length, ExtraField := text }
  else this

def withFileName (this : GzipHdr) (text : Bytes) : GzipHdr :=
  if this.has .eFNAME then { this with FileName := text } else this

def withComment (this : GzipHdr) (text : Bytes) : GzipHdr :=
  if this.has .eFCOMMENT then { this with Comment := text } else this

def withCRC (this : GzipHdr) (value : Nat) : GzipHdr :=
  if this.has .eFHCRC then { this with CRC16 := value } else this

variable {this : GzipHdr}

theorem has_of_flags {other : GzipHdr} (same : this.Flags = other.Flags)
    (flag : HdrFlag) : this.has flag = other.has flag := by
  rw [has, has, same]

@[simp]
theorem withExtra_flags (this : GzipHdr) (text : Bytes) :
    (this.withExtra text).Flags = this.Flags := by
  rw [withExtra]
  split <;> rfl

@[simp]
theorem withFileName_flags (this : GzipHdr) (text : Bytes) :
    (this.withFileName text).Flags = this.Flags := by
  rw [withFileName]
  split <;> rfl

@[simp]
theorem withComment_flags (this : GzipHdr) (text : Bytes) :
    (this.withComment text).Flags = this.Flags := by
  rw [withComment]
  split <;> rfl

variable {header : GzipHdr} {text written : Bytes}

theorem readExtra_at (before rest str : Bytes) (small : text.length < 2 ^ 16)
    (same : header.field .eFEXTRA
      (ZipOStreamBuf.longBytes 2 text.length ++ text) = written) :
    readExtra ⟨IStream.at_ before (written ++ rest), header, str, true⟩ =
      ⟨IStream.at_ (written.reverse ++ before) rest, header.withExtra text,
        str ++ written, true⟩ := by
  by_cases present : header.has .eFEXTRA = true
  · have all : written = ZipOStreamBuf.longBytes 2 text.length ++ text :=
      same.symm.trans (if_pos present)
    rw [readExtra, withExtra, if_pos present, if_pos (by simpa using present),
      all, append_assoc, getShort_at before _ _ small]
    have field := IStream.readBytes_at_append (n := text.length)
      ((ZipOStreamBuf.longBytes 2 text.length).reverse ++ before) text rest rfl
    simp only [field, IStream.eof_at, Bool.false_eq_true, if_false, reverse_append, append_assoc]
  · have nothing : written = [] := same.symm.trans (if_neg present)
    rw [readExtra, withExtra, if_neg present, if_neg (by simpa using present),
      nothing, nil_append, reverse_nil, nil_append,
      append_nil]

theorem readText_at (header : GzipHdr) (before rest str : Bytes) (nulFree : NulFree text) :
    readText ⟨IStream.at_ before (text ++ [0] ++ rest), header, str, true⟩ =
      (text, ⟨IStream.at_ ((text ++ [0]).reverse ++ before) rest, header,
        str ++ (text ++ [0]), true⟩) := by
  have all : ∀ c ∈ text, decide (c ≠ 0) = true := by
    intro c member
    refine decide_eq_true fun zero => nulFree ?_
    rwa [zero] at member
  have loop := @IStream.collect_at (fun c : Byte => decide (c ≠ 0)) 0
    (by decide) text before rest all
  rw [readText, append_assoc, singleton_append]
  simp only [loop, Option.isSome_some, append_assoc, reverse_append,
    reverse_singleton, cons_append, nil_append]

theorem readFileName_at (before rest str : Bytes) (nulFree : NulFree text)
    (same : header.field .eFNAME (text ++ [0]) = written) :
    readFileName ⟨IStream.at_ before (written ++ rest), header, str, true⟩ =
      ⟨IStream.at_ (written.reverse ++ before) rest,
        header.withFileName text, str ++ written, true⟩ := by
  by_cases present : header.has .eFNAME = true
  · have all : written = text ++ [0] := same.symm.trans (if_pos present)
    rw [readFileName, withFileName, if_pos present,
      if_pos (by simpa using present), all, readText_at _ _ _ _ nulFree]
  · have nothing : written = [] := same.symm.trans (if_neg present)
    rw [readFileName, withFileName, if_neg present,
      if_neg (by simpa using present), nothing, nil_append,
      reverse_nil, nil_append, append_nil]

theorem readComment_at (before rest str : Bytes) (nulFree : NulFree text)
    (same : header.field .eFCOMMENT (text ++ [0]) = written) :
    readComment ⟨IStream.at_ before (written ++ rest), header, str, true⟩ =
      ⟨IStream.at_ (written.reverse ++ before) rest,
        header.withComment text, str ++ written, true⟩ := by
  by_cases present : header.has .eFCOMMENT = true
  · have all : written = text ++ [0] := same.symm.trans (if_pos present)
    rw [readComment, withComment, if_pos present,
      if_pos (by simpa using present), all, readText_at _ _ _ _ nulFree]
  · have nothing : written = [] := same.symm.trans (if_neg present)
    rw [readComment, withComment, if_neg present,
      if_neg (by simpa using present), nothing, nil_append,
      reverse_nil, nil_append, append_nil]

theorem readCRC_at (before rest str : Bytes) {value : Nat} (whole : z.crc32 0 str % 2 ^ 16 = value)
    (same : header.field .eFHCRC (ZipOStreamBuf.longBytes 2 value) = written) :
    readCRC z ⟨IStream.at_ before (written ++ rest), header, str, true⟩ =
      ⟨IStream.at_ (written.reverse ++ before) rest, header.withCRC value, str, true⟩ := by
  by_cases present : header.has .eFHCRC = true
  · have small : value < 2 ^ 16 := whole ▸ Nat.mod_lt _ (by decide)
    have all : written = ZipOStreamBuf.longBytes 2 value := same.symm.trans (if_pos present)
    rw [readCRC, withCRC, if_pos present, if_pos (by simpa using present), all,
      getShort_at before _ _ small]
    simp only [decide_eq_true whole, Bool.or_true]
  · have nothing : written = [] := same.symm.trans (if_neg present)
    rw [readCRC, withCRC, if_neg present, if_neg (by simpa using present),
      nothing, nil_append, reverse_nil, nil_append]

theorem field_of_flags {other : GzipHdr}
    (same : this.Flags = other.Flags) (flag : HdrFlag) (text : Bytes) :
    this.field flag text = other.field flag text := by
  rw [field, field, has_of_flags same]

theorem readFields_at (header : GzipHdr) (before str tail : Bytes) {field name comment : Bytes}
    (small : field.length < 2 ^ 16) (nameFree : NulFree name) (commentFree : NulFree comment) :
    let extra := header.field .eFEXTRA (ZipOStreamBuf.longBytes 2 field.length ++ field)
    let fileName := header.field .eFNAME (name ++ [0])
    let remark := header.field .eFCOMMENT (comment ++ [0])
    let value := z.crc32 0 (str ++ extra ++ fileName ++ remark) % 2 ^ 16
    let sum := header.field .eFHCRC (ZipOStreamBuf.longBytes 2 value)
    readCRC z (readComment (readFileName (readExtra
      ⟨IStream.at_ before
        (extra ++ (fileName ++ (remark ++ (sum ++ tail)))), header, str,
        true⟩))) =
      ⟨IStream.at_ (sum.reverse ++ (remark.reverse ++ (fileName.reverse ++
          (extra.reverse ++ before)))) tail,
        (((header.withExtra field).withFileName name).withComment
          comment).withCRC value,
        str ++ extra ++ fileName ++ remark, true⟩ := by
  intro extra fileName remark value sum
  have second : (header.withExtra field).Flags = header.Flags := withExtra_flags header field
  have third : ((header.withExtra field).withFileName name).Flags =
      header.Flags := (withFileName_flags _ name).trans second
  have fourth : (((header.withExtra field).withFileName name).withComment
      comment).Flags = header.Flags := (withComment_flags _ comment).trans third
  rw [readExtra_at before _ str small rfl,
    readFileName_at _ _ _ nameFree (field_of_flags second _ _),
    readComment_at _ _ _ commentFree (field_of_flags third _ _),
    readCRC_at z _ _ _ rfl (field_of_flags fourth _ _)]

/-- A header that can be written and read back. -/
structure WellFormed (this : GzipHdr) : Prop where
  ID1 : this.ID1 = 0x1f
  ID2 : this.ID2 = 0x8b
  timeLength : this.ModificationTime.length = 4
  XLEN : this.XLEN = this.ExtraField.length
  small : this.ExtraField.length < 2 ^ 16
  FileName : NulFree this.FileName
  Comment : NulFree this.Comment

def copied (this : GzipHdr) : GzipHdr :=
  { create with
    ID1 := this.ID1
    ID2 := this.ID2
    CompressionMethod := this.CompressionMethod
    Flags := this.Flags
    ModificationTime := this.ModificationTime
    ExtraFlags := this.ExtraFlags
    OperatingSystem := this.OperatingSystem }

def shown (this : GzipHdr) : GzipHdr :=
  { (((this.copied.withExtra this.ExtraField).withFileName
      this.FileName).withComment this.Comment).withCRC (z.crc32 0 this.strHeader % 2 ^ 16) with
    fbValid := true }

theorem image_length (length : this.ModificationTime.length = 4) : this.image.length = 10 := by
  rw [image, length_append, length_append, length]
  rfl

theorem withImage_image (length : this.ModificationTime.length = 4) :
    create.withImage this.image = this.copied := by
  obtain ⟨a, b, c, d, four⟩ : ∃ a b c d, this.ModificationTime = [a, b, c, d] :=
    length_eq_four.mp length
  simp only [withImage, copied, image, four]
  rfl

theorem copied_image (this : GzipHdr) : this.copied.image = this.image := rfl

theorem write_fst (this : GzipHdr) :
    (this.write z).1 = this.strHeader ++ this.field .eFHCRC
      (ZipOStreamBuf.longBytes 2 (z.crc32 0 this.strHeader % 2 ^ 16)) := by
  rw [write, field]
  split
  · rfl
  · rw [append_nil]

theorem read_image (formed : this.WellFormed) (before rest : Bytes) :
    read z (IStream.at_ before (this.image ++ rest)) create =
      let r := readCRC z (readComment (readFileName (readExtra
        ⟨IStream.at_ (this.image.reverse ++ before) rest, this.copied, this.image, true⟩)))
      (r.is, { r.header with fbValid := r.bCont }) := by
  have valid : this.copied.isValid = true := by
    simp only [isValid, copied, create, formed.ID1, formed.ID2]
    decide
  have fresh : { this.copied with fbValid := true } = this.copied := rfl
  rw [read, IStream.readBytes_at_append before _ rest (image_length formed.timeLength)]
  simp only [IStream.eof_at, Bool.false_eq_true, if_false, Bool.not_false,
    withImage_image formed.timeLength, fresh, copied_image, valid]

theorem read_write (formed : this.WellFormed) (tail : Bytes) :
    read z (IStream.ofText ((this.write z).1 ++ tail)) create =
      (IStream.at_ (this.write z).1.reverse tail, this.shown z) := by
  have written : (this.write z).1 = this.image ++ (this.field .eFEXTRA
      (ZipOStreamBuf.longBytes 2 this.ExtraField.length ++ this.ExtraField) ++
        (this.field .eFNAME (this.FileName ++ [0]) ++
          (this.field .eFCOMMENT (this.Comment ++ [0]) ++
            this.field .eFHCRC (ZipOStreamBuf.longBytes 2
              (z.crc32 0 this.strHeader % 2 ^ 16))))) := by
    rw [write_fst, ← formed.XLEN]
    simp only [strHeader, append_assoc]
  have fields := readFields_at z this.copied (this.image.reverse ++ [])
    this.image tail formed.small formed.FileName formed.Comment
  have same : this.strHeader = this.image ++ this.copied.field .eFEXTRA
      (ZipOStreamBuf.longBytes 2 this.ExtraField.length ++ this.ExtraField) ++
        this.copied.field .eFNAME (this.FileName ++ [0]) ++
          this.copied.field .eFCOMMENT (this.Comment ++ [0]) := by
    rw [← formed.XLEN]
    rfl
  simp only [← same] at fields
  have all := read_image z formed [] (this.copied.field .eFEXTRA
      (ZipOStreamBuf.longBytes 2 this.ExtraField.length ++ this.ExtraField) ++
        (this.copied.field .eFNAME (this.FileName ++ [0]) ++
          (this.copied.field .eFCOMMENT (this.Comment ++ [0]) ++
            (this.copied.field .eFHCRC (ZipOStreamBuf.longBytes 2
              (z.crc32 0 this.strHeader % 2 ^ 16)) ++ tail))))
  simp only [fields] at all
  rw [written]
  simp only [append_assoc, reverse_append]
  rw [append_nil] at all
  exact all

section

variable (this : GzipHdr)

@[simp]
theorem withCRC_flags (value : Nat) : (this.withCRC value).Flags = this.Flags := by
  rw [withCRC]
  split <;> rfl

theorem shown_has (flag : HdrFlag) : (this.shown z).has flag = this.has flag := by
  refine has_of_flags ?_ flag
  simp [shown, copied]

theorem withExtra_eq : this.copied.withExtra this.ExtraField =
  { this.copied with
      XLEN := if this.has .eFEXTRA then this.ExtraField.length else 0
      ExtraField := this.field .eFEXTRA this.ExtraField } := by
  have same : this.copied.has .eFEXTRA = this.has .eFEXTRA := rfl
  rw [withExtra, field, same]
  cases this.has .eFEXTRA <;> rfl

theorem withFileName_eq {header : GzipHdr} (same : header.Flags = this.Flags)
    (none' : header.FileName = []) :
    header.withFileName this.FileName =
      { header with FileName := this.field .eFNAME this.FileName } := by
  rw [withFileName, field, has_of_flags same, ← none']
  cases this.has .eFNAME <;> rfl

theorem withComment_eq {header : GzipHdr} (same : header.Flags = this.Flags)
    (none' : header.Comment = []) :
    header.withComment this.Comment =
      { header with Comment := this.field .eFCOMMENT this.Comment } := by
  rw [withComment, field, has_of_flags same, ← none']
  cases this.has .eFCOMMENT <;> rfl

theorem withCRC_eq (value : Nat) : ∃ CRC16, this.withCRC value = { this with CRC16 := CRC16 } := by
  rw [withCRC]
  split
  · exact ⟨value, rfl⟩
  · exact ⟨this.CRC16, rfl⟩

theorem shown_eq : ∃ CRC16, this.shown z =
  { this.copied with
      XLEN := if this.has .eFEXTRA then this.ExtraField.length else 0
      ExtraField := this.field .eFEXTRA this.ExtraField
      FileName := this.field .eFNAME this.FileName
      Comment := this.field .eFCOMMENT this.Comment
      CRC16 := CRC16
      fbValid := true } := by
  have first := withExtra_eq this
  have second := withFileName_eq this
    (withExtra_flags this.copied this.ExtraField) (by rw [first]; rfl)
  have third := withComment_eq this
    ((withFileName_flags _ this.FileName).trans (withExtra_flags this.copied this.ExtraField))
    (by rw [second, first]; rfl)
  rcases withCRC_eq (((this.copied.withExtra this.ExtraField).withFileName
    this.FileName).withComment this.Comment)
    (z.crc32 0 this.strHeader % 2 ^ 16) with ⟨CRC16, fourth⟩
  rw [shown, fourth, third, second, first]
  exact ⟨CRC16, rfl⟩

/-- A well-formed header is read as a valid one. -/
theorem shown_isValid (formed : this.WellFormed) : (this.shown z).isValid = true := by
  rcases shown_eq z this with ⟨CRC16, shown⟩
  rw [shown]
  simp only [isValid, copied, formed.ID1, formed.ID2]
  decide

end

end GzipHdr

end Coast
