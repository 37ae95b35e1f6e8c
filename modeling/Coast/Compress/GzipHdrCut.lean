import Coast.Compress.GzipHdrFields

/-!
# Reading a header that was cut off

A header that is not there completely is read to the end of the stream,
whatever field it is cut in.
-/

namespace Coast

open List

structure IStream.Exhausted (s : IStream) : Prop where
  rest : s.rest = []
  eof : s.eof = true
  fail : s.fail = true

namespace IStream

theorem readBytes_short {n : Nat} (before : Bytes) {rest : Bytes} (short : rest.length < n) :
    ((at_ before rest).readBytes n).2.Exhausted := by
  have nothing : rest.drop n = [] := drop_eq_nil_of_le (Nat.le_of_lt short)
  rw [readBytes, if_pos (good_at before rest)]
  exact ⟨nothing, decide_eq_true short, decide_eq_true short⟩

theorem Exhausted.readBytes {s : IStream} (exhausted : s.Exhausted) (n : Nat) :
    (s.readBytes n).2.Exhausted := by
  have bad : ¬ s.good = true := by
    rw [good, exhausted.eof]
    exact Bool.false_ne_true
  rw [IStream.readBytes, if_neg bad]
  exact ⟨exhausted.rest, exhausted.eof, rfl⟩

theorem Exhausted.collect {s : IStream} (exhausted : s.Exhausted)
    (p : Byte → Bool) : (s.collect p).2.2.Exhausted := by
  have bad : ¬ s.good = true := by
    rw [good, exhausted.eof]
    exact Bool.false_ne_true
  rw [IStream.collect, if_neg bad]
  exact ⟨exhausted.rest, exhausted.eof, rfl⟩

end IStream

theorem prefix_append_cases {part first second : Bytes} (inside : part <+: first ++ second) :
    part.length < first.length ∧ part <+: first ∨
      ∃ rest, part = first ++ rest ∧ rest <+: second := by
  by_cases short : part.length < first.length
  · exact .inl ⟨short, prefix_of_prefix_length_le inside
      (prefix_append first second) (Nat.le_of_lt short)⟩
  · right
    rcases prefix_of_prefix_length_le (prefix_append first second)
      inside (Nat.le_of_not_lt short) with ⟨rest, whole⟩
    refine ⟨rest, whole.symm, ?_⟩
    rw [← whole] at inside
    exact (prefix_append_right_inj first).mp inside

namespace GzipHdr

variable (z : Zlib)

theorem getShort_exhausted {is : IStream} (exhausted : is.Exhausted)
    (old : Nat) : (getShort is old).2.Exhausted :=
  exhausted.readBytes 2

theorem getShort_short (before : Bytes) {rest : Bytes} (old : Nat) (short : rest.length < 2) :
    (getShort (IStream.at_ before rest) old).2.Exhausted :=
  IStream.readBytes_short before short

variable {r : Reading}

section

variable (exhausted : r.is.Exhausted)
include exhausted

theorem readText_exhausted : (readText r).2.is.Exhausted := exhausted.collect _

theorem readFileName_exhausted : (readFileName r).is.Exhausted := by
  rw [readFileName]
  split
  · exact readText_exhausted exhausted
  · exact exhausted

theorem readComment_exhausted : (readComment r).is.Exhausted := by
  rw [readComment]
  split
  · exact readText_exhausted exhausted
  · exact exhausted

theorem readCRC_exhausted : (readCRC z r).is.Exhausted := by
  rw [readCRC]
  split
  · exact getShort_exhausted exhausted r.header.CRC16
  · exact exhausted

end

variable {header : GzipHdr} {text part : Bytes}

theorem has_of_short {flag : HdrFlag}
    {part : Bytes} (short : part.length < (header.field flag text).length) :
    header.has flag = true ∧ header.field flag text = text := by
  by_cases present : header.has flag = true
  · exact ⟨present, if_pos present⟩
  · rw [field, if_neg present] at short
    exact absurd short (Nat.not_lt_zero _)

theorem readExtra_cut (before str : Bytes) (small : text.length < 2 ^ 16)
    (short : part.length < (header.field .eFEXTRA
      (ZipOStreamBuf.longBytes 2 text.length ++ text)).length)
    (inside : part <+: header.field .eFEXTRA
      (ZipOStreamBuf.longBytes 2 text.length ++ text)) :
    (readExtra ⟨IStream.at_ before part, header, str, true⟩).is.Exhausted := by
  rcases has_of_short short with ⟨present, whole⟩
  rw [whole] at short inside
  rw [readExtra, if_pos (by simpa using present)]
  rcases prefix_append_cases inside with ⟨few, -⟩ | ⟨rest, rfl, -⟩
  · rw [ZipIStreamBuf.longBytes_length] at few
    have exhausted := getShort_short before header.XLEN few
    simp only [exhausted.eof, if_true]
    exact exhausted
  · rw [length_append, length_append] at short
    have few : rest.length < text.length := by omega
    have exhausted := IStream.readBytes_short
      ((ZipOStreamBuf.longBytes 2 text.length).reverse ++ before) few
    rw [getShort_at before rest _ small]
    simp only [IStream.eof_at, exhausted.eof, Bool.false_eq_true, if_false, if_true]
    exact exhausted

theorem readText_cut (header : GzipHdr) (before str : Bytes) (nulFree : NulFree text)
    (short : part.length < (text ++ [0]).length) (inside : part <+: text ++ [0]) :
    (readText ⟨IStream.at_ before part, header, str, true⟩).2.is.Exhausted := by
  have begins : part <+: text := by
    refine prefix_of_prefix_length_le inside (prefix_append _ _) ?_
    rw [length_append] at short
    exact Nat.le_of_lt_succ short
  have all : ∀ c ∈ part, decide (c ≠ 0) = true := by
    intro c member
    refine decide_eq_true fun zero => nulFree ?_
    rw [zero] at member
    exact begins.subset member
  have loop := IStream.collect_at_all (fun c : Byte => decide (c ≠ 0)) part before all
  rw [readText]
  simp only [loop]
  exact ⟨rfl, rfl, rfl⟩

theorem readFileName_cut (before str : Bytes) (nulFree : NulFree text)
    (short : part.length < (header.field .eFNAME (text ++ [0])).length)
    (inside : part <+: header.field .eFNAME (text ++ [0])) :
    (readFileName ⟨IStream.at_ before part, header, str, true⟩).is.Exhausted := by
  rcases has_of_short short with ⟨present, whole⟩
  rw [whole] at short inside
  rw [readFileName, if_pos (by simpa using present)]
  exact readText_cut header before str nulFree short inside

theorem readComment_cut (before str : Bytes) (nulFree : NulFree text)
    (short : part.length < (header.field .eFCOMMENT (text ++ [0])).length)
    (inside : part <+: header.field .eFCOMMENT (text ++ [0])) :
    (readComment ⟨IStream.at_ before part, header, str, true⟩).is.Exhausted := by
  rcases has_of_short short with ⟨present, whole⟩
  rw [whole] at short inside
  rw [readComment, if_pos (by simpa using present)]
  exact readText_cut header before str nulFree short inside

theorem readCRC_cut (before str : Bytes)
    {value : Nat} (short : part.length < (header.field .eFHCRC
      (ZipOStreamBuf.longBytes 2 value)).length) :
    (readCRC z ⟨IStream.at_ before part, header, str, true⟩).is.Exhausted := by
  rcases has_of_short short with ⟨present, whole⟩
  rw [whole, ZipIStreamBuf.longBytes_length] at short
  rw [readCRC, if_pos (by simpa using present)]
  exact getShort_short before header.CRC16 short

theorem readFields_cut (header : GzipHdr) (before str : Bytes)
    {field name comment : Bytes} (small : field.length < 2 ^ 16)
    (nameFree : NulFree name) (commentFree : NulFree comment) {value : Nat} {part : Bytes} :
    let extra := header.field .eFEXTRA (ZipOStreamBuf.longBytes 2 field.length ++ field)
    let fileName := header.field .eFNAME (name ++ [0])
    let remark := header.field .eFCOMMENT (comment ++ [0])
    let sum := header.field .eFHCRC (ZipOStreamBuf.longBytes 2 value)
    part <+: extra ++ (fileName ++ (remark ++ sum)) →
    part ≠ extra ++ (fileName ++ (remark ++ sum)) →
    (readCRC z (readComment (readFileName (readExtra
      ⟨IStream.at_ before part, header, str, true⟩)))).is.Exhausted := by
  intro extra fileName remark sum inside proper
  have second : (header.withExtra field).Flags = header.Flags := withExtra_flags header field
  have third : ((header.withExtra field).withFileName name).Flags =
      header.Flags := (withFileName_flags _ name).trans second
  have fourth : (((header.withExtra field).withFileName name).withComment
      comment).Flags = header.Flags := (withComment_flags _ comment).trans third
  rcases prefix_append_cases inside with ⟨short, begins⟩ | ⟨rest, rfl, more⟩
  · exact readCRC_exhausted z (readComment_exhausted (readFileName_exhausted
      (readExtra_cut before str small short begins)))
  rw [readExtra_at before rest str small rfl]
  rcases prefix_append_cases more with ⟨short, begins⟩ | ⟨rest, rfl, later⟩
  · have same := field_of_flags second .eFNAME (name ++ [0])
    exact readCRC_exhausted z (readComment_exhausted
      (readFileName_cut _ _ nameFree (same ▸ short) (same ▸ begins)))
  rw [readFileName_at _ rest _ nameFree (field_of_flags second _ _)]
  rcases prefix_append_cases later with ⟨short, begins⟩ | ⟨rest, rfl, last⟩
  · have same := field_of_flags third .eFCOMMENT (comment ++ [0])
    exact readCRC_exhausted z (readComment_cut _ _ commentFree (same ▸ short) (same ▸ begins))
  rw [readComment_at _ rest _ commentFree (field_of_flags third _ _)]
  have same := field_of_flags fourth .eFHCRC (ZipOStreamBuf.longBytes 2 value)
  refine @readCRC_cut z _ _ _ _ value (same ▸ ?_)
  refine Nat.lt_of_le_of_ne last.length_le fun whole => proper ?_
  rw [last.eq_of_length whole]

/-- Reading a part of a header comes to the end of the stream. -/
theorem read_cut {this : GzipHdr} (formed : this.WellFormed)
    (inside : part <+: (this.write z).1) (proper : part ≠ (this.write z).1) :
    (read z (IStream.ofText part) create).1.Exhausted := by
  have written : (this.write z).1 = this.image ++ (this.copied.field .eFEXTRA
      (ZipOStreamBuf.longBytes 2 this.ExtraField.length ++ this.ExtraField) ++
        (this.copied.field .eFNAME (this.FileName ++ [0]) ++
          (this.copied.field .eFCOMMENT (this.Comment ++ [0]) ++
            this.copied.field .eFHCRC (ZipOStreamBuf.longBytes 2
              (z.crc32 0 this.strHeader % 2 ^ 16))))) := by
    rw [write_fst, ← formed.XLEN]
    simp only [strHeader, append_assoc]
    rfl
  rw [written] at inside proper
  rcases prefix_append_cases inside with ⟨short, -⟩ | ⟨rest, rfl, later⟩
  · rw [image_length formed.timeLength] at short
    have exhausted := IStream.readBytes_short [] short
    rw [read, IStream.ofText]
    simp only [exhausted.eof, if_true]
    exact exhausted
  · have image := read_image z formed [] rest
    rw [IStream.ofText, image]
    exact readFields_cut z this.copied _ this.image formed.small
      formed.FileName formed.Comment later
      fun whole => proper (congrArg _ whole)

end GzipHdr

end Coast
