import Coast.Compress.GzipHdrCut
import Coast.Compress.ZipDelivery

/-!
# Files that were cut off

A file whose end is missing is read until the stream runs dry.  `close` then
takes sixteen bytes, however many are left.
-/

namespace Coast.ZipIStreamBuf

open List Option

variable {z : Zlib} {capacity : Nat} {data text trailer : Bytes}

def readHeader (fIs : Bytes) : ZipIStreamBuf z :=
  let (is, fHeader) := GzipHdr.read z (IStream.ofText fIs) .create
  { create fIs with
    isInitialized := true
    fIs := is.rest
    fIsGood := is.good
    badbit := !fHeader.isValid
    fZipErr := if fHeader.isValid then Z_OK else Z_DATA_ERROR
    fCrcData := z.crc32 0 [] }

/-- The bytes that `getLong` takes, if they are there. -/
def takes (capacity : Nat) : Nat → ZipIStreamBuf z → Option (Bytes × ZipIStreamBuf z)
  | 0, this => some ([], this)
  | left + 1, this =>
    let this := if this.avail_in.length < 1 then this.fillCompressed capacity else this
    match this.avail_in with
    | [] => none
    | byte :: rest =>
      (takes capacity left { this with avail_in := rest }).map
        fun (bytes, after) => (byte :: bytes, after)

theorem takes_isSome_iff (positive : 0 < capacity) (left : Nat)
    {this : ZipIStreamBuf z} (dry : this.fIsGood = false → this.fIs = []) :
    (this.takes capacity left).isSome ↔ left ≤ (this.avail_in ++ this.fIs).length := by
  induction left generalizing this with
  | zero => simp [takes]
  | succ left ih =>
    cases all : this.avail_in ++ this.fIs with
    | nil =>
      rcases append_eq_nil_iff.mp all with ⟨area, below⟩
      have still : (this.fillCompressed capacity).avail_in = [] := by
        rw [ZipIStreamBuf.fillCompressed]
        split
        · rw [below]
          exact take_nil
        · exact area
      have empty : this.avail_in.length < 1 := by
        rw [area]
        exact Nat.zero_lt_one
      rw [takes, if_pos empty]
      simp only [still]
      simp
    | cons byte rest =>
      rcases fill_some all dry positive with ⟨filled, avail_in, isFilled, area, isRest, dry', -⟩
      have next := @ih { filled with avail_in := avail_in } dry'
      rw [takes, ← isFilled]
      simp only [area, isSome_map, length_cons]
      rw [next, ← isRest]
      exact Nat.succ_le_succ_iff.symm

/-- A cut file is being read: some of its text has been inflated to `o`. -/
structure CutReading (text trailer : Bytes) (this : ZipIStreamBuf z)
    (c : Bytes) (o : Bytes) : Prop where
  isInitialized : this.isInitialized = true
  received : z.Received text this.fZip c o
  inside : c <+: text
  rest : c ++ (this.avail_in ++ this.fIs) <+: text ++ trailer
  few : c.length + (this.avail_in ++ this.fIs).length < text.length + 16
  dry : this.fIsGood = false → this.fIs = []
  fZipErr : this.fZipErr = Z_OK

/-- What `sync` leaves of a cut file, by what it returns. -/
inductive CutRefilled (data text trailer c o : Bytes) : Int → ZipIStreamBuf z → Prop
  | dry {after : ZipIStreamBuf z} (nothing : after.avail_in = [] ∧ after.fIs = []) :
      CutRefilled data text trailer c o (-1) after
  | ended {after : ZipIStreamBuf z} (ended : after.fZipErr = Z_STREAM_END)
      (few : (after.avail_in ++ after.fIs).length < 16)
      (dry : after.fIsGood = false → after.fIs = []) (right : o ++ after.getArea <+: data) :
      CutRefilled data text trailer c o 0 after
  | reading {after : ZipIStreamBuf z} {c' : Bytes}
      (reading : CutReading text trailer after c' (o ++ after.getArea))
      (right : o ++ after.getArea <+: data) (progress : c.length < c'.length + after.getArea.length)
      (longer : c.length ≤ c'.length) :
      CutRefilled data text trailer c o 0 after

section

variable {this : ZipIStreamBuf z} {c o : Bytes}

theorem fillCompressed_dry (nothing : this.avail_in = [] ∧ this.fIs = [])
    (positive : 0 < capacity) :
    (this.fillCompressed capacity).avail_in = [] ∧ (this.fillCompressed capacity).fIs = [] ∧
      (this.fillCompressed capacity).fIsGood = false ∧
      (this.fillCompressed capacity).fZipErr = this.fZipErr := by
  rw [ZipIStreamBuf.fillCompressed]
  split
  · have short : ¬ capacity ≤ ([] : Bytes).length := Nat.not_le.mpr positive
    rw [nothing.2]
    exact ⟨take_nil, drop_nil, decide_eq_false short, rfl⟩
  · rename_i stays
    have bad : this.fIsGood = false := by
      cases good : this.fIsGood with
      | false => rfl
      | true => exact absurd ⟨nothing.1, good⟩ stays
    exact ⟨nothing.1, nothing.2, bad, rfl⟩

theorem sync_dry (isInitialized : this.isInitialized = true)
    (nothing : this.avail_in = [] ∧ this.fIs = [])
    (unended : this.fZipErr ≠ Z_STREAM_END) (positive : 0 < capacity) (empty : this.getArea = []) :
    ∃ after, this.sync capacity = some (-1, after) ∧ after.avail_in = [] ∧ after.fIs = [] := by
  have same : this.zipinit = this := if_pos isInitialized
  rw [ZipIStreamBuf.sync, same]
  by_cases ok : this.fZipErr = Z_OK
  · rcases fillCompressed_dry nothing positive with ⟨area, below, bad, sameErr⟩
    obtain ⟨filled, isFilled⟩ : ∃ filled, filled = this.fillCompressed capacity := ⟨_, rfl⟩
    rw [← isFilled] at area below bad sameErr
    have stops : ¬ (filled.fZipErr = Z_OK ∧ filled.avail_in ≠ [] ∧
        ([] : Bytes).length < capacity) := fun goes => goes.2.1 area
    have isOk : filled.fZipErr = Z_OK := sameErr.trans ok
    rw [if_pos ⟨ok, empty⟩, ← isFilled, ZipIStreamBuf.runInflate, inflateLoop, if_neg stops]
    simp only [bind_eq_bind, bind_some]
    rw [if_pos ⟨bad, area, isOk⟩]
    exact ⟨_, rfl, area, below⟩
  · have fails : ¬ (this.fZipErr = Z_OK ∨ this.fZipErr = Z_STREAM_END) :=
      fun fine => fine.elim ok unended
    rw [if_neg fun both => ok both.1]
    simp only [bind_eq_bind, bind_some]
    rw [if_neg fun all => ok all.2.2, if_neg fails]
    exact ⟨this, rfl, nothing⟩

variable (reading : CutReading text trailer this c o)
include reading

theorem CutReading.fillCompressed
    (left : this.avail_in ++ this.fIs ≠ []) (positive : 0 < capacity) :
    CutReading text trailer (this.fillCompressed capacity) c o ∧
      (this.fillCompressed capacity).avail_in ≠ [] := by
  rcases fillCompressed_spec reading.dry positive left
    with ⟨avail_in, fIs, fIsGood, filled, same, some_in, dry⟩
  rw [filled]
  refine ⟨{ reading with rest := ?_, few := ?_, dry := dry }, some_in⟩
  · rw [same]
    exact reading.rest
  · rw [same]
    exact reading.few

theorem CutReading.runInflate
    (encodes : z.Encodes data text) (some_in : this.avail_in ≠ []) (positive : 0 < capacity) :
    ∃ after, this.runInflate capacity = some after ∧ CutRefilled data text trailer c o 0 after := by
  have agrees : Zlib.Agrees text c this.avail_in := by
    refine ⟨trailer, List.IsPrefix.trans ?_ reading.rest⟩
    rw [← append_assoc]
    exact prefix_append _ _
  have inflates := encodes _ _ _ reading.received _ _ agrees some_in positive
  have received := fun goesOn =>
    Zlib.Received.call reading.received agrees some_in positive goesOn
  obtain ⟨called, isCalled⟩ : ∃ called,
      called = z.inflate this.fZip this.avail_in capacity := ⟨_, rfl⟩
  rw [← isCalled] at inflates received
  have runs := runInflate_once reading.fZipErr some_in positive called isCalled inflates.stops
  have all : (c ++ this.avail_in.take called.consumed) ++
      (this.avail_in.drop called.consumed ++ this.fIs) = c ++ (this.avail_in ++ this.fIs) := by
    rw [append_assoc, ← append_assoc (this.avail_in.take _), take_append_drop]
  have few : (c ++ this.avail_in.take called.consumed).length +
      (this.avail_in.drop called.consumed ++ this.fIs).length < text.length + 16 := by
    rw [← length_append, all, length_append]
    exact reading.few
  refine ⟨_, runs, ?_⟩
  rcases inflates.outcome with ⟨ended, isText, -⟩ | ⟨ok, progress, _⟩
  · rw [isText] at few
    have left := Nat.lt_of_add_lt_add_left few
    exact .ended ended left reading.dry inflates.right
  · refine .reading ⟨reading.isInitialized, received ok, inflates.inside,
      all ▸ reading.rest, few, reading.dry, ok⟩ inflates.right ?_ ?_
    · show c.length < (c ++ this.avail_in.take called.consumed).length + called.out.length
      have took := inflates.consumed_le
      rw [length_append, length_take]
      rcases progress with some' | gave
      · omega
      · have given := length_pos_iff.mpr gave
        omega
    · rw [length_append]
      omega

theorem CutReading.sync
    (encodes : z.Encodes data text) (positive : 0 < capacity) (empty : this.getArea = []) :
    ∃ err after, this.sync capacity = some (err, after) ∧
      CutRefilled data text trailer c o err after := by
  by_cases nothing : this.avail_in ++ this.fIs = []
  · have unended : this.fZipErr ≠ Z_STREAM_END := by
      rw [reading.fZipErr]
      decide
    rcases sync_dry reading.isInitialized (append_eq_nil_iff.mp nothing)
      unended positive empty with ⟨after, syncs, dry⟩
    exact ⟨-1, after, syncs, .dry dry⟩
  rcases reading.fillCompressed nothing positive with ⟨filled, some_in⟩
  rcases filled.runInflate encodes some_in positive with ⟨after, runs, refilled⟩
  have same : this.zipinit = this := if_pos reading.isInitialized
  have synced : this.sync capacity = if after.fIsGood = false ∧ after.avail_in = [] ∧
          after.fZipErr = Z_OK then
        some (-1, { after with failbit := true })
      else if after.fZipErr = Z_OK ∨ after.fZipErr = Z_STREAM_END then
        some (0, after)
      else some (-1, after) := by
    rw [ZipIStreamBuf.sync, same, if_pos ⟨reading.fZipErr, empty⟩, runs]
    rfl
  rw [synced]
  by_cases premature : after.fIsGood = false ∧ after.avail_in = [] ∧ after.fZipErr = Z_OK
  · rw [if_pos premature]
    refine ⟨_, _, rfl, .dry ⟨premature.2.1, ?_⟩⟩
    cases refilled with
    | ended ended few dry right => exact dry premature.1
    | reading still right progress longer => exact still.dry premature.1
  · have fine : after.fZipErr = Z_OK ∨ after.fZipErr = Z_STREAM_END := by
      cases refilled with
      | ended ended few dry right => exact .inr ended
      | reading still right progress longer => exact .inl still.fZipErr
    rw [if_neg premature, if_pos fine]
    exact ⟨0, after, rfl, refilled⟩

theorem CutReading.answered (encodes : z.Encodes data text) (positive : 0 < capacity)
    (empty : this.getArea = []) (left : this.avail_in ++ this.fIs ≠ []) {err : Int}
    {after : ZipIStreamBuf z} (syncs : this.sync capacity = some (err, after)) :
    Answered capacity this after := by
  have same : this.zipinit = this := if_pos reading.isInitialized
  have answers := @sync_answered z capacity data text this c o err after
  rw [same] at answers
  exact answers reading.fZipErr empty reading.dry (Zlib.block_ne_nil positive left) positive
    (encodes.answer reading.received reading.rest left positive) syncs

end

end Coast.ZipIStreamBuf
