import Coast.Compress.ZipCut

/-!
# Closing a file that was cut off

Unless a refill is taken for the end too early, fewer than sixteen bytes are
left when the file is closed, and `close` reads behind them.
-/

namespace Coast.ZipIStreamBuf

open List Option Nat

variable {z : Zlib} {capacity : Nat} {data text trailer : Bytes}

/-- An answer of zlib is taken for the end of file although sixteen bytes of the
file are left: it gives nothing, or bytes that begin with the one that
`underflow` answers the end of file with. -/
inductive StopsEarly (z : Zlib) (capacity : Nat) : z.Inflate → Bytes → Bytes → Prop
  | here {s : z.Inflate} {avail file : Bytes}
      (stops : (z.answer capacity s avail file).out = [] ∨
        (z.answer capacity s avail file).out.head? = some 0xff)
      (left : 16 ≤ (z.untaken capacity s avail file ++ Zlib.below capacity avail file).length) :
      StopsEarly z capacity s avail file
  | next {s : z.Inflate} {avail file : Bytes}
      (goesOn : (z.answer capacity s avail file).err = Z_OK)
      (some_out : (z.answer capacity s avail file).out ≠ [])
      (marker : (z.answer capacity s avail file).out.head? ≠ some 0xff)
      (rest : StopsEarly z capacity (z.answer capacity s avail file).state
        (z.untaken capacity s avail file) (Zlib.below capacity avail file)) :
      StopsEarly z capacity s avail file

/-- Reading to the end and closing ends in a failure state, and all the bytes
that `close` takes are there. -/
def FailsSafely (z : Zlib) (capacity : Nat) (ns : List Nat) (file : Bytes) : Prop :=
  ∃ (s : Bytes) (last : ZipIStreamBuf z),
    readBlocks capacity ns (readHeader file) = some (s, last) ∧
      last.failbit = true ∧ (last.takes capacity 16).isSome

section

variable {this : ZipIStreamBuf z} {c o : Bytes}

/-- The answers of zlib from here on. -/
def Early (capacity : Nat) (this : ZipIStreamBuf z) : Prop :=
  StopsEarly z capacity this.fZip this.avail_in this.fIs

theorem untaken_le (s : z.Inflate) (avail file : Bytes) :
    (z.untaken capacity s avail file ++ Zlib.below capacity avail file).length ≤
      (avail ++ file).length := by
  rw [← Zlib.block_append_below capacity avail file, length_append, length_append, Zlib.untaken,
    length_drop]
  omega

theorem StopsEarly.left_le {s : z.Inflate} {avail file : Bytes}
    (early : StopsEarly z capacity s avail file) : 16 ≤ (avail ++ file).length := by
  induction early with
  | here stops left => exact left.trans (untaken_le _ _ _)
  | next goesOn some_out marker rest ih => exact ih.trans (untaken_le _ _ _)

variable {after : ZipIStreamBuf z}

theorem sgetn_failed {err : Int} (n : Nat)
    (empty : this.getArea = []) (unended : this.fZipErr ≠ Z_STREAM_END)
    (syncs : this.sync capacity = some (err, after)) (failed : err ≠ 0) :
    this.sgetn capacity (n + 1) = some ([], after.atEnd) := by
  have flows : this.underflow capacity = some (EOF, after.atEnd) := by
    rw [underflow, if_pos ⟨empty, unended⟩, syncs]
    simp only [bind_eq_bind, bind_some, if_pos failed]
  rw [sgetn, sbumpc, if_pos empty, uflow, flows]
  rfl

structure Left (capacity : Nat) (this last : ZipIStreamBuf z) : Prop where
  goesDry : last.fIsGood = false → last.fIs = []
  enough_iff : 16 ≤ (last.avail_in ++ last.fIs).length ↔ this.Early capacity

theorem Left.dry {last : ZipIStreamBuf z} (nothing : last.avail_in = [] ∧ last.fIs = [])
    (late : ¬ this.Early capacity) : Left capacity this last.atEnd where
  goesDry _ := nothing.2
  enough_iff := by
    refine iff_of_false ?_ late
    rw [show last.atEnd.avail_in = [] from nothing.1, show last.atEnd.fIs = [] from nothing.2]
    decide

theorem early_next (answered : Answered capacity this after) (goesOn : after.fZipErr = Z_OK)
    (some_out : after.getArea ≠ []) (marker : after.getArea.head? ≠ some 0xff) :
    this.Early capacity ↔ after.Early capacity := by
  unfold Early
  rw [answered.fZip, answered.avail_in, answered.fIs]
  rw [answered.fZipErr] at goesOn
  rw [answered.getArea] at some_out marker
  constructor
  · intro early
    cases early with
    | here stops left => exact (stops.elim some_out marker).elim
    | next goesOn' some_out' marker' rest => exact rest
  · exact .next goesOn some_out marker

theorem early_here (answered : Answered capacity this after)
    (stops : after.getArea = [] ∨ after.getArea.head? = some 0xff) :
    this.Early capacity ↔ 16 ≤ (after.avail_in ++ after.fIs).length := by
  unfold Early
  rw [answered.avail_in, answered.fIs]
  rw [answered.getArea] at stops
  constructor
  · intro early
    cases early with
    | here stops' left => exact left
    | next goesOn some_out marker rest => exact (stops.elim some_out marker).elim
  · exact .here stops

theorem not_early (answered : Answered capacity this after)
    (few : (after.avail_in ++ after.fIs).length < 16) : ¬ this.Early capacity := by
  rw [answered.avail_in, answered.fIs] at few
  intro early
  cases early with
  | here stops left => omega
  | next goesOn some_out marker rest =>
    have left := rest.left_le
    omega

theorem not_early_dry (nothing : this.avail_in ++ this.fIs = []) : ¬ this.Early capacity := by
  intro early
  have left := early.left_le
  rw [nothing] at left
  exact absurd left (by decide)

theorem sgetn_stopped (n : Nat) (unended : this.fZipErr ≠ Z_STREAM_END)
    (syncs : this.emptied.sync capacity = some (0, after))
    (stops : after.getArea = [] ∨ after.getArea.head? = some 0xff) :
    ∃ last, this.emptied.sgetn capacity (n + 1) = some ([], last) ∧
      last.avail_in = after.avail_in ∧ last.fIs = after.fIs ∧
      last.fIsGood = after.fIsGood := by
  by_cases nothing : after.getArea = []
  · exact ⟨after.atEnd, sgetn_nothing n unended syncs nothing, rfl, rfl, rfl⟩
  · have marker := stops.resolve_left nothing
    exact ⟨after, sgetn_marker n unended syncs nothing marker, rfl, rfl, rfl⟩

/-- Reading a cut file never gives what is not in its text. -/
theorem CutReading.reads (encodes : z.Encodes data text) (positive : 0 < capacity) {fuel n : Nat}
    {rest : Bytes} (reading : CutReading text trailer this c o) (empty : this.getArea = [])
    (split : o ++ rest = data) (enough : rest.length < n)
    (bound : text.length + rest.length < fuel + c.length) :
    ∃ s last, this.sgetn capacity n = some (s, last) ∧ s.length < n ∧ Left capacity this last := by
  induction fuel generalizing this c o n rest with
  | zero =>
    have inside := reading.inside.length_le
    omega
  | succ fuel ih =>
    have unended : this.fZipErr ≠ Z_STREAM_END := by
      rw [reading.fZipErr]
      decide
    obtain ⟨m, rfl⟩ : ∃ m, n = m + 1 := ⟨n - 1, by omega⟩
    have fresh := emptied_eq empty
    by_cases left : this.avail_in ++ this.fIs = []
    · rcases sync_dry reading.isInitialized (append_eq_nil_iff.mp left) unended positive empty
        with ⟨after, syncs, nothing⟩
      exact ⟨[], after.atEnd, sgetn_failed m empty unended syncs (by decide), succ_pos m,
        .dry nothing (not_early_dry left)⟩
    rcases reading.sync encodes positive empty with ⟨err, after, syncs, refilled⟩
    have answered := reading.answered encodes positive empty left syncs
    have syncs' : this.emptied.sync capacity = some (err, after) := by
      rw [fresh]
      exact syncs
    cases refilled with
    | dry nothing =>
      have few : (after.avail_in ++ after.fIs).length < 16 := by
        rw [nothing.1, nothing.2]
        decide
      exact ⟨[], after.atEnd, sgetn_failed m empty unended syncs (by decide), succ_pos m,
        .dry nothing (not_early answered few)⟩
    | ended ended few dry right =>
      have late := not_early answered few
      have never : ¬ 16 ≤ (after.avail_in ++ after.fIs).length := not_le.mpr few
      by_cases marker : after.getArea.head? = some 0xff
      · rcases sgetn_stopped m unended syncs' (.inr marker) with ⟨last, gets, area, below, good⟩
        rw [fresh] at gets
        refine ⟨[], last, gets, succ_pos m, ?_, iff_of_false ?_ late⟩
        · rwa [good, below]
        · rwa [area, below]
      · rcases right with ⟨rest', split'⟩
        have isRest : rest = after.getArea ++ rest' := by
          rw [← split', append_assoc] at split
          exact append_cancel_left split
        rw [isRest, length_append] at enough
        obtain ⟨k, isLong⟩ : ∃ k, m + 1 = after.getArea.length + (k + 1) :=
          ⟨m - after.getArea.length, by omega⟩
        have gets := sgetn_last k unended syncs' ended marker
        rw [fresh] at gets
        rw [isLong]
        exact ⟨after.getArea, after.emptied.atEnd, gets, by omega, dry, iff_of_false never late⟩
    | reading still right progress longer =>
      by_cases stops : after.getArea = [] ∨ after.getArea.head? = some 0xff
      · rcases sgetn_stopped m unended syncs' stops with ⟨last, gets, area, below, good⟩
        rw [fresh] at gets
        refine ⟨[], last, gets, succ_pos m, ?_, ?_⟩
        · rw [good, below]
          exact still.dry
        · rw [area, below]
          exact (early_here answered stops).symm
      · have some_out : after.getArea ≠ [] := fun nothing =>
          stops (.inl nothing)
        have marker : after.getArea.head? ≠ some 0xff := fun same =>
          stops (.inr same)
        rcases right with ⟨rest', split'⟩
        have isRest : rest = after.getArea ++ rest' := by
          rw [← split', append_assoc] at split
          exact append_cancel_left split
        rw [isRest, length_append] at enough bound
        obtain ⟨k, isLong⟩ : ∃ k, m + 1 = after.getArea.length + k :=
          ⟨m + 1 - after.getArea.length, by omega⟩
        have later : CutReading text trailer after.emptied _ _ := { still with }
        rcases ih later rfl split' (by omega : rest'.length < k)
          (by omega) with ⟨s, last, gets, short, left⟩
        have whole := sgetn_refilled k unended syncs' some_out marker
        rw [fresh, gets, map_some] at whole
        rw [isLong]
        refine ⟨after.getArea ++ s, last, whole, ?_, left.goesDry, ?_⟩
        · rw [length_append]
          omega
        · rw [left.enough_iff]
          exact (early_next answered still.fZipErr some_out marker).symm

end

/-- A whole file for some data: behind a header and the compressed text the
checksum and the length, in four bytes each as the format has them or in
eight as `close` writes them. -/
structure GzipFile (z : Zlib) (data : Bytes) where
  header : GzipHdr
  formed : header.WellFormed
  text : Bytes
  encodes : z.Encodes data text
  trailer : Bytes
  isTrailer :
    trailer = ZipOStreamBuf.gzipTrailer (z.crc32 0 data) data.length ∨
      trailer = ZipOStreamBuf.longBytes 8 (z.crc32 0 data) ++
        ZipOStreamBuf.longBytes 8 (data.length % 2 ^ 64)

namespace GzipFile

def bytes (file : GzipFile z data) : Bytes := (file.header.write z).1 ++ (file.text ++ file.trailer)

variable (file : GzipFile z data)
include file

theorem trailer_length : file.trailer.length ≤ 16 := by
  rcases file.isTrailer with format | written
  · rw [format, ZipOStreamBuf.gzipTrailer, length_append, longBytes_length, longBytes_length]
    decide
  · rw [written, length_append, longBytes_length, longBytes_length]

theorem reads_header {cut : Bytes} (inside : cut <+: (file.header.write z).1)
    (proper : cut ≠ (file.header.write z).1) (positive : 0 < capacity) (n : Nat) :
    ∃ last, (readHeader cut : ZipIStreamBuf z).sgetn capacity (n + 1) =
        some ([], last) ∧ Left capacity (readHeader cut) last := by
  have exhausted := GzipHdr.read_cut z file.formed inside proper
  have nothing : (readHeader cut : ZipIStreamBuf z).avail_in = [] ∧
      (readHeader cut : ZipIStreamBuf z).fIs = [] := ⟨rfl, exhausted.rest⟩
  have unended : (readHeader cut : ZipIStreamBuf z).fZipErr ≠ Z_STREAM_END := by
    simp only [readHeader]
    generalize (GzipHdr.read z (IStream.ofText cut) .create).2.isValid = valid
    cases valid <;> decide
  rcases sync_dry rfl nothing unended positive rfl with ⟨after, syncs, dry⟩
  exact ⟨after.atEnd, sgetn_failed n rfl unended syncs (by decide),
    .dry dry (not_early_dry (append_eq_nil_iff.mpr nothing))⟩

theorem readHeader_reading {body : Bytes}
    (inside : body <+: file.text ++ file.trailer) (proper : body ≠ file.text ++ file.trailer) :
    CutReading file.text file.trailer
      (readHeader ((file.header.write z).1 ++ body) : ZipIStreamBuf z)
      [] [] := by
  have whole := GzipHdr.read_write z file.formed body
  have valid := GzipHdr.shown_isValid z file.header file.formed
  have short : body.length < file.text.length + 16 := by
    have less : body.length < (file.text ++ file.trailer).length :=
      lt_of_le_of_ne inside.length_le fun same =>
        proper (inside.eq_of_length same)
    have bound := file.trailer_length
    rw [length_append] at less
    omega
  have opened : (readHeader ((file.header.write z).1 ++ body) :
      ZipIStreamBuf z) = { create ((file.header.write z).1 ++ body) with
        isInitialized := true
        fIs := body
        fIsGood := true
        badbit := false
        fZipErr := Z_OK
        fCrcData := z.crc32 0 [] } := by
    rw [readHeader, whole]
    simp only [valid, Bool.not_true, if_true]
    rfl
  rw [opened]
  refine ⟨rfl, .init, nil_prefix, inside, ?_, ?_, rfl⟩
  · rw [length_nil, zero_add]
    exact short
  · intro bad
    cases bad

theorem reads {cut : Bytes} (inside : cut <+: file.bytes) (proper : cut ≠ file.bytes)
    (positive : 0 < capacity) {n : Nat} (enough : data.length < n) :
    ∃ s last, (readHeader cut : ZipIStreamBuf z).sgetn capacity n = some (s, last) ∧ s.length < n ∧
      Left capacity (readHeader cut) last := by
  obtain ⟨m, rfl⟩ : ∃ m, n = m + 1 := ⟨n - 1, by omega⟩
  rcases prefix_append_cases inside with ⟨short, begins⟩ | ⟨body, rfl, later⟩
  · have properHeader : cut ≠ (file.header.write z).1 := by
      intro same
      rw [same] at short
      exact lt_irrefl _ short
    rcases file.reads_header begins properHeader positive m with ⟨last, gets, left⟩
    exact ⟨[], last, gets, succ_pos m, left⟩
  · have reading := file.readHeader_reading later fun same =>
      proper (congrArg _ same)
    exact reading.reads file.encodes positive rfl (nil_append data) enough (lt_succ_self _)

theorem early_iff {cut : Bytes} (inside : cut <+: file.bytes) (proper : cut ≠ file.bytes) :
    (readHeader cut : ZipIStreamBuf z).Early capacity ↔
      ∃ body, cut = (file.header.write z).1 ++ body ∧
        StopsEarly z capacity z.inflateInit [] body := by
  rcases prefix_append_cases inside with ⟨short, begins⟩ | ⟨body, rfl, later⟩
  · have properHeader : cut ≠ (file.header.write z).1 := by
      intro same
      rw [same] at short
      exact lt_irrefl _ short
    have exhausted := GzipHdr.read_cut z file.formed begins properHeader
    have nothing : (readHeader cut : ZipIStreamBuf z).avail_in ++
        (readHeader cut : ZipIStreamBuf z).fIs = [] := exhausted.rest
    refine iff_of_false (not_early_dry nothing) ?_
    rintro ⟨body, rfl, -⟩
    rw [length_append] at short
    omega
  · have isBody : (readHeader ((file.header.write z).1 ++ body) : ZipIStreamBuf z).fIs = body := by
      rw [readHeader, GzipHdr.read_write z file.formed body]
      rfl
    unfold Early
    rw [isBody]
    constructor
    · intro early
      exact ⟨body, rfl, early⟩
    · rintro ⟨body', same, early⟩
      rw [append_cancel_left same]
      exact early

end GzipFile

/-- Closing a file that was cut off takes only bytes of the file exactly when it
was cut behind the header and an answer of zlib is taken for the end of file
with sixteen bytes left. -/
theorem failsSafely_iff (z : Zlib) {capacity : Nat} (positive : 0 < capacity) {data : Bytes}
    (file : GzipFile z data) {cut : Bytes} (inside : cut <+: file.bytes) (proper : cut ≠ file.bytes)
    {ns : List Nat} (enough : data.length < ns.sum) :
    FailsSafely z capacity ns cut ↔ ∃ body, cut = (file.header.write z).1 ++ body ∧
      StopsEarly z capacity z.inflateInit [] body := by
  rcases file.reads inside proper positive enough with ⟨s, last, gets, short, left⟩
  have reads : readBlocks capacity ns (readHeader cut : ZipIStreamBuf z) =
      some (s, last.atEnd) := by
    rw [readBlocks_eq, read, gets]
    simp only [bind_eq_bind, bind_some, if_pos short]
  have takes_iff := @takes_isSome_iff z capacity positive 16 last.atEnd left.goesDry
  rw [← file.early_iff inside proper, ← left.enough_iff]
  constructor
  · rintro ⟨s', last', reads', -, taken⟩
    rw [reads] at reads'
    cases reads'
    exact takes_iff.mp taken
  · intro enoughLeft
    exact ⟨s, last.atEnd, reads, rfl, takes_iff.mpr enoughLeft⟩

/-- The file that a closed stream has written. -/
def GzipFile.plain (data : Bytes) : GzipFile plainZlib data where
  header := .create
  formed := {
    ID1 := rfl
    ID2 := rfl
    timeLength := rfl
    XLEN := rfl
    small := by decide
    FileName := by decide
    Comment := by decide }
  text := PlainZlib.encode data
  encodes := PlainZlib.encodes data
  trailer := ZipOStreamBuf.longBytes 8 (plainZlib.crc32 0 data) ++
    ZipOStreamBuf.longBytes 8 (data.length % 2 ^ 64)
  isTrailer := .inr rfl

theorem GzipFile.plain_header (data : Bytes) :
    ((plain data).header.write plainZlib).1 = gzipHdr := by
  show (GzipHdr.create.write plainZlib).1 = gzipHdr
  decide +kernel

theorem GzipFile.plain_cut (data : Bytes) {behind : Bytes} (notAll : behind ≠ [])
    {body : Bytes} (isBody : body ++ behind = (plain data).text ++ (plain data).trailer) :
    gzipHdr ++ body <+: (plain data).bytes ∧ gzipHdr ++ body ≠ (plain data).bytes := by
  have whole : (plain data).bytes = gzipHdr ++ (body ++ behind) := by
    rw [isBody, bytes, plain_header]
  rw [whole]
  refine ⟨⟨behind, append_assoc _ _ _⟩, fun same => notAll ?_⟩
  have none := append_cancel_left same
  exact append_right_eq_self.mp none.symm

theorem GzipFile.letter_cut : gzipHdr <+: (plain [98]).bytes ∧ gzipHdr ≠ (plain [98]).bytes := by
  have behind : (plain [98]).text ++ (plain [98]).trailer ≠ [] := by decide
  have cut := plain_cut [98] behind (nil_append _)
  rwa [append_nil] at cut

/-- The header alone, and five letters in blocks of four bytes without the last
byte of the trailer: the first block gives nothing yet. -/
theorem failsSafely_iff_letter :
    (FailsSafely plainZlib 16384 [4096] gzipHdr ↔
      ∃ body, gzipHdr = ((GzipFile.plain [98]).header.write plainZlib).1 ++ body ∧
        StopsEarly plainZlib 16384 plainZlib.inflateInit [] body) ∧
    FailsSafely plainZlib 4 [6] (gzipHdr ++ (PlainZlib.encode [1, 2, 3, 4, 5] ++
      (GzipFile.plain [1, 2, 3, 4, 5]).trailer.dropLast)) := by
  refine ⟨failsSafely_iff plainZlib (by decide) (GzipFile.plain [98])
    GzipFile.letter_cut.1 GzipFile.letter_cut.2 (by decide), ?_⟩
  have behind : ([0] : Bytes) ≠ [] := by decide
  have cut := GzipFile.plain_cut [1, 2, 3, 4, 5] behind
    (by decide +kernel : (PlainZlib.encode [1, 2, 3, 4, 5] ++
      (GzipFile.plain [1, 2, 3, 4, 5]).trailer.dropLast) ++ [0] = _)
  refine (failsSafely_iff plainZlib (by decide) (GzipFile.plain [1, 2, 3, 4, 5])
    cut.1 cut.2 (by decide)).mpr ⟨PlainZlib.encode [1, 2, 3, 4, 5] ++
      (GzipFile.plain [1, 2, 3, 4, 5]).trailer.dropLast, ?_, ?_⟩
  · rw [GzipFile.plain_header]
  · exact .here (.inl rfl) (by decide +kernel)

set_option maxRecDepth 100000 in
/-- Behind the header nothing is left for `close`. -/
theorem not_failsSafely :
    (∃ file : GzipFile plainZlib [98], gzipHdr <+: file.bytes ∧ gzipHdr ≠ file.bytes) ∧
      ¬ FailsSafely plainZlib 16384 [4096] gzipHdr := by
  refine ⟨⟨.plain [98], GzipFile.letter_cut⟩, ?_⟩
  rintro ⟨s, last, reads, -, taken⟩
  cases reads
  cases taken

end Coast.ZipIStreamBuf
