import Coast.Base.MmapStream

/-!
# One call of a stream over a mapped file

What has to hold before a call for the window to show the plain file at its
position after it.
-/

namespace Coast.MmapStream

open MmapStreamBuf PaddedText Option
open StringStreamBuf (asInt)

variable {pageSize : Nat}

def NoGap (this : MmapStream) : Prop := this.plain.pos ≤ this.plain.bytes.length

instance (this : MmapStream) : Decidable (NoGap this) := inferInstanceAs (Decidable (_ ≤ _))

/-- The put pointer can be moved: it is an `int` away from the start of the
window, and a window in front of this one is not at the start of the file and
not looked for while the stream still has to go to the end once. -/
def Reaches (pageSize : Nat) (this : MmapStream) (p : Int) : Prop :=
  let position : Int := (this.plain.seek p).pos
  let window :=
    if this.buf.fLength < p then
      windowFor pageSize this.buf.fFl this.plain.pos
    else this.buf.fMapOffset
  window - 2 ^ 31 ≤ position ∧ position < window + 2 ^ 31 ∧
    (position < window → 0 < position ∧ this.buf.fFl.ate = false)

/-- The length is looked at when there is no gap, and a seek from the end
finds the length up to date. -/
def Meets (pageSize : Nat) (this : MmapStream) : FileCall → Prop
  | .put _ => this.buf.epptr ≤ this.buf.pptr →
      this.plain.pos - windowFor pageSize this.buf.fFl this.plain.pos < 2 ^ 31
  | .seekpos p => NoGap this ∧ 0 ≤ p ∧ Reaches pageSize this p
  | .seekoff off dir =>
    (dir = .end_ → this.buf.fFileLength = this.plain.bytes.length) ∧
    (0 ≤ this.plain.target off dir → NoGap this ∧ Reaches pageSize this (this.plain.target off dir))
  | .sync => NoGap this

def PutInside (this : MmapStream) : Prop := 0 ≤ this.buf.pptr ∧ this.buf.pptr ≤ this.buf.epptr

/-- The stream goes with a plain file and its position. -/
structure Follows (this : MmapStream) : Prop where
  placed : Placed this.buf this.plain.pos
  mapped : 0 < this.buf.fLength → this.buf.fAddr = true
  fLength_eq : this.buf.fLength = this.buf.file.length
  inside : this.plain.pos ≤ this.buf.file.length
  offset_le : this.buf.fMapOffset ≤ this.plain.pos
  epptr_eq : this.buf.epptr = this.buf.fLength - this.buf.fMapOffset
  append_eq : this.plain.append = this.buf.fFl.app
  nonneg : 0 ≤ this.buf.fFileLength
  size : (this.plain.bytes.length : Int) = this.buf.fFileLength ∨
    (this.plain.bytes.length : Int) = max this.buf.fFileLength this.plain.pos
  size_le : this.plain.bytes.length ≤ this.buf.file.length
  shows' : Shows 0 this.buf.file this.plain.bytes

variable {this : MmapStream}

theorem Follows.putInside (follows : Follows this) : PutInside this := by
  have putIs := follows.placed.pptr_eq
  have lengthIs := follows.fLength_eq
  have inside := follows.inside
  have offset := follows.offset_le
  have endIs := follows.epptr_eq
  unfold PutInside
  omega

/-- There is room for one more character in the window. -/
structure Room (this : MmapStream) : Prop where
  placed : Placed this.buf this.plain.pos
  mapped : this.buf.fAddr = true
  fLength_eq : this.buf.fLength = this.buf.file.length
  inside : this.plain.pos < this.buf.file.length
  offset_le : this.buf.fMapOffset ≤ this.plain.pos
  epptr_eq : this.buf.epptr = this.buf.fLength - this.buf.fMapOffset
  append_eq : this.plain.append = this.buf.fFl.app
  nonneg : 0 ≤ this.buf.fFileLength
  size : max (this.plain.bytes.length : Int) (this.plain.pos + 1) =
    max this.buf.fFileLength (this.plain.pos + 1)
  size_le : this.plain.bytes.length ≤ this.buf.file.length
  shows' : Shows 0 this.buf.file this.plain.bytes

theorem Follows.room (follows : Follows this)
    (room : this.buf.pptr < this.buf.epptr) : Room this := by
  have putIs := follows.placed.pptr_eq
  have lengthIs := follows.fLength_eq
  have endIs := follows.epptr_eq
  have sizes := follows.size
  exact ⟨follows.placed, follows.mapped (by omega), lengthIs, by omega,
    follows.offset_le, endIs, follows.append_eq, follows.nonneg, by omega,
    follows.size_le, follows.shows'⟩

theorem Room.follows (room : Room this)
    (size : (this.plain.bytes.length : Int) = this.buf.fFileLength) :
    Follows this :=
  ⟨room.placed, fun _ => room.mapped, room.fLength_eq,
    Nat.le_of_lt room.inside, room.offset_le, room.epptr_eq, room.append_eq,
    room.nonneg, .inl size, room.size_le, room.shows'⟩

theorem Room.store (room : Room this) (c : Byte) :
    ∃ buf, this.buf.store c = some buf ∧ Follows ⟨buf, this.plain.step (.put c)⟩ := by
  have putIs := room.placed.pptr_eq
  have inside := room.inside
  have offset := room.offset_le
  have sizes := room.size
  have sizeLe := room.size_le
  have place : this.buf.pptr + this.buf.fMapOffset = this.plain.pos := by
    omega
  have written : this.buf.file.set this.plain.pos c = writeAt 0 this.buf.file this.plain.pos c := by
    unfold writeAt
    rw [if_pos inside]
  refine ⟨{ this.buf with
    file := writeAt 0 this.buf.file this.plain.pos c
    pptr := this.buf.pptr + 1 }, ?_, ?_⟩
  · unfold MmapStreamBuf.store
    rw [if_pos ⟨room.mapped, by omega, by omega⟩, place, Int.toNat_natCast, written]
  · have fileLength := length_writeAt 0 this.buf.file this.plain.pos c
    have bytesLength := length_writeAt 0 this.plain.bytes this.plain.pos c
    constructor
    · constructor
      · exact room.placed.isOpen
      · exact room.placed.out
      · exact Int.natCast_nonneg _
      · simp only [PlainFile.step]
        omega
      · exact room.placed.offset_nonneg
      · intro unmapped
        rw [room.mapped] at unmapped
        cases unmapped
      · exact room.placed.in_offset
      · intro atTop
        simp only [PlainFile.step] at atTop
        omega
    · exact fun _ => room.mapped
    · have lengthIs := room.fLength_eq
      simp only
      omega
    · simp only [PlainFile.step]
      omega
    · simp only [PlainFile.step]
      omega
    · exact room.epptr_eq
    · exact room.append_eq
    · exact room.nonneg
    · simp only [PlainFile.step]
      omega
    · simp only [PlainFile.step]
      omega
    · exact room.shows'.writeAt this.plain.pos c

theorem Follows.grow (page : 0 < pageSize) (follows : Follows this)
    (atEnd : (this.plain.pos : Int) = this.buf.fLength)
    (fits : this.plain.pos - windowFor pageSize this.buf.fFl this.plain.pos < 2 ^ 31)
    {newlength : Int} (more : this.buf.fLength < newlength) :
    ∃ buf, this.buf.reserve pageSize newlength = some (true, buf) ∧
      buf.pptr < buf.epptr ∧ Room ⟨buf, this.plain⟩ ∧
      buf.fFileLength = max this.buf.fFileLength this.plain.pos := by
  have putIs := follows.placed.pptr_eq
  have lengthIs := follows.fLength_eq
  have inside := follows.inside
  have endIs := follows.epptr_eq
  have sizes := follows.size
  have sizeLe := follows.size_le
  rcases reserve_grows page follows.placed endIs lengthIs (by omega)
    more with ⟨grown, buf, reserves, remapped, long, showsGrown⟩
  have window := windowFor_le page this.buf.fFl follows.placed.nonneg
  have put : putAfter { this.buf with file := grown } this.plain.pos = this.plain.pos := by
    unfold putAfter
    dsimp only
    split
    · omega
    · rfl
  have grownLength := remapped.fLength_eq
  have grownOffset := remapped.fMapOffset_eq
  have grownFile := remapped.file_eq
  have grownEnd := remapped.epptr_eq
  have grownSize := remapped.fFileLength_eq
  have grownPut := remapped.pptr_eq
  rw [put] at grownPut
  dsimp only at grownLength grownOffset grownFile grownSize
  rw [asInt_of_fits (by omega) (by omega)] at grownPut
  refine ⟨buf, reserves, by omega, ?_, grownSize⟩
  have offsetNonneg : 0 ≤ windowFor pageSize this.buf.fFl this.plain.pos :=
    windowFor_nonneg this.buf.fFl follows.placed.nonneg
  have placed := remapped.placed (follows.placed.withFile grown)
    follows.placed.nonneg grownPut (by omega)
  have fileLength := congrArg List.length grownFile
  have append : buf.fFl.app = this.buf.fFl.app := by
    rcases remapped.fFl_eq with same | same <;> rw [same]
  constructor
  · exact placed
  · exact remapped.mapped
  · dsimp only
    omega
  · dsimp only
    omega
  · dsimp only
    omega
  · exact grownEnd
  · exact follows.append_eq.trans append.symm
  · have nonneg := follows.nonneg
    dsimp only
    omega
  · dsimp only
    omega
  · dsimp only
    omega
  · dsimp only
    rw [grownFile]
    exact showsGrown _ follows.shows'

theorem put_follows (page : 0 < pageSize) {c : Byte}
    (follows : Follows this) (meets : Meets pageSize this (.put c)) :
    ∃ after, step pageSize this (.put c) = some after ∧ Follows after := by
  have putInside := follows.putInside
  by_cases room : this.buf.pptr < this.buf.epptr
  · rcases (follows.room room).store c with ⟨buf, stores, next⟩
    refine ⟨_, ?_, next⟩
    simp only [step, bufStep, sputc, if_pos room, stores, map_some, bind_eq_bind, bind_some]
  · have putIs := follows.placed.pptr_eq
    have lengthIs := follows.fLength_eq
    have inside := follows.inside
    have endIs := follows.epptr_eq
    have more : this.buf.fLength < this.buf.pptr + 1 + this.buf.fMapOffset := by omega
    rcases follows.grow page (by omega) (meets (by omega)) more with
        ⟨grown, reserves, fits, hasRoom, _⟩
    rcases hasRoom.store c with ⟨buf, stores, next⟩
    have start : 0 ≤ this.buf.pptr ∧ (this.buf.fAddr = false → this.buf.pptr = 0) := by
      refine ⟨putInside.1, fun unmapped => ?_⟩
      have nowhere := follows.placed.unmapped unmapped
      omega
    refine ⟨_, ?_, next⟩
    simp only [step, bufStep, sputc, if_neg room, overflow, if_pos start, reserves, bind_eq_bind,
      bind_some, if_true, if_pos fits, stores, map_some]

/-- The stream with the length up to date and room for the position. -/
structure Ample (this : MmapStream) (buf : MmapStreamBuf) (p : Int) : Prop where
  isOpen : buf.fMapFd = true
  out : buf.fFl.out = true
  mapped : 0 < buf.fLength → buf.fAddr = true
  unmapped : buf.fAddr = false → buf.fMapOffset = 0
  fLength_eq : buf.fLength = buf.file.length
  reached : p ≤ buf.fLength
  offset_nonneg : 0 ≤ buf.fMapOffset
  offset_le : buf.fMapOffset ≤ this.plain.pos
  in_offset : buf.fFl.in_ = true → buf.fMapOffset = 0
  append_eq : this.plain.append = buf.fFl.app
  size : (this.plain.bytes.length : Int) = buf.fFileLength
  size_le : this.plain.bytes.length ≤ buf.file.length
  shows' : Shows 0 buf.file this.plain.bytes

theorem adjustFileLength_eq (follows : Follows this)
    (noGap : NoGap this) : this.buf.adjustFileLength =
      { this.buf with fFileLength := this.plain.bytes.length } := by
  have putIs := follows.placed.pptr_eq
  have lengthIs := follows.fLength_eq
  have sizes := follows.size
  have sizeLe := follows.size_le
  have nonneg := follows.nonneg
  unfold NoGap at noGap
  have unchanged : this.buf.fFileLength = this.plain.bytes.length →
      this.buf = { this.buf with fFileLength := this.plain.bytes.length } := by
    intro same
    rw [← same]
  unfold adjustFileLength
  rw [follows.placed.out, Bool.and_true]
  dsimp only
  split
  · split
    · congr 1
      omega
    · exact unchanged (by omega)
  · rename_i notMapped
    have short : ¬ 0 < this.buf.fLength := fun long =>
      notMapped (follows.mapped long)
    exact unchanged (by omega)

variable {p : Int}

theorem adjusted_ample (follows : Follows this) (reached : p ≤ this.buf.fLength) :
    Ample this { this.buf with fFileLength := this.plain.bytes.length } p where
  isOpen := follows.placed.isOpen
  out := follows.placed.out
  mapped := follows.mapped
  unmapped := fun unmapped => (follows.placed.unmapped unmapped).2
  fLength_eq := follows.fLength_eq
  reached := reached
  offset_nonneg := follows.placed.offset_nonneg
  offset_le := follows.offset_le
  in_offset := follows.placed.in_offset
  append_eq := follows.append_eq
  size := rfl
  size_le := follows.size_le
  shows' := follows.shows'

theorem reserve_ample (page : 0 < pageSize)
    (follows : Follows this) (noGap : NoGap this) (more : this.buf.fLength < p) :
    ∃ buf, reserve pageSize
        { this.buf with fFileLength := this.plain.bytes.length } p = some (true, buf) ∧
      Ample this buf p ∧
      buf.fMapOffset = windowFor pageSize this.buf.fFl this.plain.pos := by
  have inside := follows.inside
  have lengthIs := follows.fLength_eq
  have placed := follows.placed.withFileLength this.plain.bytes.length
  rcases reserve_grows page placed follows.epptr_eq lengthIs
    (by dsimp only; omega) more with ⟨grown, buf, reserves, remapped, long, showsGrown⟩
  have window := windowFor_le page this.buf.fFl follows.placed.nonneg
  have windowNonneg : 0 ≤ windowFor pageSize this.buf.fFl this.plain.pos :=
    windowFor_nonneg this.buf.fFl follows.placed.nonneg
  have grownOffset := remapped.fMapOffset_eq
  have grownLength := remapped.fLength_eq
  have grownSize := remapped.fFileLength_eq
  have fileLength := congrArg List.length remapped.file_eq
  have sizeLe := follows.size_le
  unfold NoGap at noGap
  dsimp only at grownOffset grownLength grownSize fileLength
  have flags : buf.fFl.out = this.buf.fFl.out ∧
      buf.fFl.in_ = this.buf.fFl.in_ ∧ buf.fFl.app = this.buf.fFl.app := by
    rcases remapped.fFl_eq with same | same <;> rw [same] <;> exact ⟨rfl, rfl, rfl⟩
  refine ⟨buf, reserves, ?_, grownOffset⟩
  constructor
  · exact remapped.isOpen
  · exact flags.1.trans follows.placed.out
  · exact fun _ => remapped.mapped
  · intro unmapped
    rw [remapped.mapped] at unmapped
    cases unmapped
  · omega
  · omega
  · omega
  · omega
  · intro reads
    rw [grownOffset]
    unfold windowFor
    rw [← flags.2.1, if_pos reads]
  · exact follows.append_eq.trans flags.2.2.symm
  · omega
  · omega
  · rw [remapped.file_eq]
    exact showsGrown _ follows.shows'

theorem seek_of_nonneg (plain : PlainFile) (nonneg : 0 ≤ p) :
    plain.seek p = { plain with
      pos := if plain.append then max p.toNat plain.bytes.length
        else p.toNat } :=
  if_neg (by omega)

/-- `setPositions` goes where the plain file goes. -/
theorem Ample.seek_target {buf : MmapStreamBuf} (ample : Ample this buf p) (nonneg : 0 ≤ p) :
    (if buf.fFl.app && p < buf.fFileLength && 0 < buf.fFileLength then buf.fFileLength else p) =
      (this.plain.seek p).pos := by
  have size := ample.size
  rw [seek_of_nonneg this.plain nonneg, ample.append_eq]
  dsimp only
  cases buf.fFl.app with
  | false =>
    rw [Bool.false_and, Bool.false_and, if_neg Bool.false_ne_true, if_neg Bool.false_ne_true]
    omega
  | true =>
    rw [if_pos rfl, Bool.true_and]
    split
    · rename_i inFront
      rw [Bool.and_eq_true, decide_eq_true_eq, decide_eq_true_eq] at inFront
      omega
    · rename_i behind
      rw [Bool.and_eq_true, decide_eq_true_eq, decide_eq_true_eq] at behind
      omega

theorem Ample.seek_inFile {buf : MmapStreamBuf} (ample : Ample this buf p) (nonneg : 0 ≤ p) :
    (this.plain.seek p).pos ≤ buf.file.length := by
  have size := ample.size
  have reached := ample.reached
  have lengthIs := ample.fLength_eq
  have sizeLe := ample.size_le
  rw [seek_of_nonneg this.plain nonneg]
  dsimp only
  split <;> omega

/-- A seek within the file keeps the stream with it. -/
theorem Ample.seek (page : 0 < pageSize) (isInt : pageSize < 2 ^ 31) {buf : MmapStreamBuf}
    (ample : Ample this buf p) (noGap : NoGap this) (nonneg : 0 ≤ p)
    (low : buf.fMapOffset - 2 ^ 31 ≤ (this.plain.seek p).pos)
    (high : (this.plain.seek p).pos < buf.fMapOffset + 2 ^ 31)
    (back : ((this.plain.seek p).pos : Int) < buf.fMapOffset →
      0 < (this.plain.seek p).pos ∧ buf.fFl.ate = false) :
    Follows ⟨(buf.setPositions pageSize p seekOut).1, this.plain.seek p⟩ := by
  have size := ample.size
  have target := ample.seek_target nonneg
  have inFile := ample.seek_inFile nonneg
  obtain ⟨position, positionIs⟩ : ∃ position, position = (this.plain.seek p).pos := ⟨_, rfl⟩
  have seeks := seek_of_nonneg this.plain nonneg
  have moves : this.plain.seek p = { this.plain with pos := position } := by
    rw [positionIs, seeks]
  rw [← positionIs] at low high back target inFile
  have append : buf.fFl.app = true → this.plain.bytes.length ≤ position := by
    intro appends
    rw [positionIs, seeks]
    dsimp only
    rw [ample.append_eq, if_pos appends]
    exact Nat.le_max_right _ _
  rw [moves]
  unfold setPositions seekOut
  dsimp only
  rw [if_neg Bool.false_ne_true, if_pos rfl, target, asInt_of_fits (by omega) (by omega)]
  have inWindow := ample.offset_le
  unfold NoGap at noGap
  split
  · rename_i leaves
    rw [Bool.and_eq_true, decide_eq_true_eq, decide_eq_true_eq] at leaves
    rcases back (by omega) with ⟨positive, cleared⟩
    have notAppend : buf.fFl.app = false := by
      cases appends : buf.fFl.app with
      | false => rfl
      | true =>
        have behind := append appends
        omega
    have notIn : buf.fFl.in_ = false := by
      cases reads : buf.fFl.in_ with
      | false => rfl
      | true =>
        have atTop := ample.in_offset reads
        omega
    have nonneg' : (0 : Int) ≤ position := Int.natCast_nonneg _
    have placed : Placed { buf with
        pptr := position - buf.fMapOffset
        epptr := buf.fLength - buf.fMapOffset } position := by
      refine ⟨ample.isOpen, ample.out, nonneg', rfl, ample.offset_nonneg, ?_,
        ample.in_offset, fun atTop => ?_⟩
      · intro unmapped
        have atTop := ample.unmapped unmapped
        omega
      · omega
    have window := windowFor_le page buf.fFl nonneg'
    have windowNonneg : 0 ≤ windowFor pageSize buf.fFl position := windowFor_nonneg buf.fFl nonneg'
    have windowAbove : position < windowFor pageSize buf.fFl position + pageSize := by
      unfold windowFor
      rw [notIn, if_neg Bool.false_ne_true]
      exact lt_roundDown_add page nonneg'
    have sizeLe := ample.size_le
    have long : windowFor pageSize buf.fFl position < buf.file.length := by
      omega
    rcases xinit_remapped placed long with ⟨after, maps, remapped⟩
    rw [maps]
    have put : putAfter { buf with
        pptr := position - buf.fMapOffset
        epptr := buf.fLength - buf.fMapOffset } position = position := by
      unfold putAfter
      dsimp only
      rw [notAppend, cleared, Bool.or_self, if_neg Bool.false_ne_true]
    have offsetIs := remapped.fMapOffset_eq
    have lengthIs := remapped.fLength_eq
    have sizeIs := remapped.fFileLength_eq
    have putIs := remapped.pptr_eq
    have fileLength := congrArg List.length remapped.file_eq
    rw [put] at putIs
    dsimp only at offsetIs lengthIs sizeIs fileLength
    rw [asInt_of_fits (by omega) (by omega)] at putIs
    have flags : after.fFl.app = buf.fFl.app := by
      rcases remapped.fFl_eq with same | same <;> rw [same]
    constructor
    · apply remapped.placed placed nonneg' putIs
      intro atTop
      omega
    · exact fun _ => remapped.mapped
    · dsimp only
      omega
    · dsimp only
      omega
    · dsimp only
      omega
    · exact remapped.epptr_eq
    · exact ample.append_eq.trans flags.symm
    · dsimp only
      omega
    · left
      dsimp only
      omega
    · dsimp only
      omega
    · dsimp only
      rw [remapped.file_eq]
      exact ample.shows'
  · rename_i stays
    rw [Bool.and_eq_true, decide_eq_true_eq, decide_eq_true_eq] at stays
    have offsetNonneg := ample.offset_nonneg
    constructor
    · constructor
      · exact ample.isOpen
      · exact ample.out
      · exact Int.natCast_nonneg _
      · rfl
      · exact offsetNonneg
      · intro unmapped
        have short : ¬ 0 < buf.fLength := by
          intro long
          rw [ample.mapped long] at unmapped
          cases unmapped
        have lengthIs := ample.fLength_eq
        have atTop : (position : Int) = 0 := by omega
        exact ⟨atTop, ample.unmapped unmapped⟩
      · exact ample.in_offset
      · intro atTop
        dsimp only at atTop ⊢
        omega
    · exact ample.mapped
    · exact ample.fLength_eq
    · exact inFile
    · dsimp only
      omega
    · rfl
    · exact ample.append_eq
    · dsimp only
      omega
    · exact .inl size
    · exact ample.size_le
    · exact ample.shows'

theorem le_seek (plain : PlainFile) (nonneg : 0 ≤ p) : p ≤ (plain.seek p).pos := by
  rw [seek_of_nonneg plain nonneg]
  dsimp only
  split <;> omega

theorem seekpos_follows (page : 0 < pageSize) (isInt : pageSize < 2 ^ 31) (follows : Follows this)
    (noGap : NoGap this) (nonneg : 0 ≤ p) (reaches : Reaches pageSize this p) :
    ∃ result, this.buf.seekpos pageSize p seekOut = some result ∧
      Follows ⟨result.1, this.plain.seek p⟩ := by
  rcases reaches with ⟨low, high, back⟩
  unfold MmapStreamBuf.seekpos
  rw [adjustFileLength_eq follows noGap]
  dsimp only
  by_cases more : this.buf.fLength < p
  · rw [if_pos more] at low high back
    rcases reserve_ample page follows noGap more with ⟨buf, reserves, ample, offsetIs⟩
    rw [← offsetIs] at low high back
    have isOut : seekOut.out = true := rfl
    rw [if_pos more, if_pos isOut, reserves]
    refine ⟨buf.setPositions pageSize p seekOut, rfl, ?_⟩
    apply ample.seek page isInt noGap nonneg low high
    intro leaves
    have reached := le_seek this.plain nonneg
    have inside := follows.inside
    have lengthIs := follows.fLength_eq
    have inWindow := ample.offset_le
    omega
  · rw [if_neg more] at low high back
    rw [if_neg more]
    refine ⟨_, rfl, ?_⟩
    have ample := adjusted_ample follows (Int.not_lt.mp more)
    apply ample.seek page isInt noGap nonneg low high
    intro leaves
    rcases back leaves with ⟨positive, cleared⟩
    exact ⟨by omega, cleared⟩

theorem target_eq (follows : Follows this) (off : Int)
    {dir : SeekDir} (known : dir = .end_ → this.buf.fFileLength = this.plain.bytes.length) :
    this.buf.target off dir seekOut = this.plain.target off dir := by
  have putIs := follows.placed.pptr_eq
  cases dir with
  | beg => exact Int.add_zero off
  | cur =>
    simp only [MmapStreamBuf.target, PlainFile.target, seekOut, Bool.false_eq_true, if_false]
    omega
  | end_ =>
    have same := known rfl
    simp only [MmapStreamBuf.target, PlainFile.target]
    split <;> omega

theorem seekoff_follows (page : 0 < pageSize) (isInt : pageSize < 2 ^ 31) {off : Int}
    {dir : SeekDir} (follows : Follows this) (meets : Meets pageSize this (.seekoff off dir)) :
    ∃ result, this.buf.seekoff pageSize off dir seekOut = some result ∧
      Follows ⟨result.1, this.plain.seek (this.plain.target off dir)⟩ := by
  unfold MmapStreamBuf.seekoff
  rw [target_eq follows off meets.1]
  by_cases nonneg : 0 ≤ this.plain.target off dir
  · rw [if_neg (by omega)]
    rcases meets.2 nonneg with ⟨noGap, reaches⟩
    exact seekpos_follows page isInt follows noGap nonneg reaches
  · refine ⟨_, if_pos (by omega), ?_⟩
    have stays : this.plain.seek (this.plain.target off dir) = this.plain := if_pos (by omega)
    rw [stays]
    exact follows

theorem sync_follows (follows : Follows this) (noGap : NoGap this) :
    Follows { this with buf := this.buf.sync } := by
  unfold MmapStreamBuf.sync syncOutput
  rw [if_pos follows.placed.out, adjustFileLength_eq follows noGap]
  exact ⟨follows.placed.withFileLength _, follows.mapped, follows.fLength_eq,
    follows.inside, follows.offset_le, follows.epptr_eq, follows.append_eq,
    Int.natCast_nonneg _, .inl rfl, follows.size_le, follows.shows'⟩

/-- A call that meets the condition keeps the stream with its file. -/
theorem step_follows (page : 0 < pageSize) (isInt : pageSize < 2 ^ 31)
    {call : FileCall} (follows : Follows this) (meets : Meets pageSize this call) :
    ∃ after, step pageSize this call = some after ∧ Follows after := by
  cases call with
  | put c => exact put_follows page follows meets
  | seekpos p =>
    rcases seekpos_follows page isInt follows meets.1 meets.2.1 meets.2.2 with ⟨result, seeks, next⟩
    refine ⟨_, ?_, next⟩
    simp only [step, bufStep, seeks, map_some, bind_eq_bind, bind_some, PlainFile.step]
  | seekoff off dir =>
    rcases seekoff_follows page isInt follows meets with ⟨result, seeks, next⟩
    refine ⟨_, ?_, next⟩
    simp only [step, bufStep, seeks, map_some, bind_eq_bind, bind_some, PlainFile.step]
  | sync => exact ⟨_, rfl, sync_follows follows meets⟩

end Coast.MmapStream
