import Coast.Base.StringStreamBuf
import Coast.Library.PaddedText

/-!
# Streams over a mapped file

`MmapStreamBuf` writes into a window of a file that is mapped.  Its pointers
are modelled as offsets from the start of the window.  A function gives
nothing where an assertion of the code fails or a character would be stored
outside of the window.
-/

namespace Coast

open PaddedText

def OpenMode.magic (omode : OpenMode) : OpenMode :=
  let omode := if omode.ate || omode.app then { omode with out := true } else omode
  if omode.out && !(omode.app || omode.ate) then { omode with trunc := true }
  else omode

/-- A stream that is open; the file is what the descriptor stands for. -/
structure MmapStreamBuf where
  file : Bytes
  fMapFd : Bool
  fLength : Int
  fMapOffset : Int
  fFileLength : Int
  fAddr : Bool
  gptr : Int
  egptr : Int
  pptr : Int
  epptr : Int
  fFl : OpenMode
  deriving DecidableEq, Repr

namespace MmapStreamBuf

open StringStreamBuf (asInt eof)

def roundUp (pageSize : Nat) (pos : Int) : Int := ((pos - 1).tdiv pageSize + 1) * pageSize

def roundDown (pageSize : Nat) (pos : Int) : Int := pos.tdiv pageSize * pageSize

def adjustFileLength (this : MmapStreamBuf) : MmapStreamBuf :=
  if this.fAddr && this.fFl.out then
    let newlen := this.pptr + this.fMapOffset
    if this.fFileLength < newlen then { this with fFileLength := newlen }
    else this
  else this

def isvalid (this : MmapStreamBuf) : Bool :=
  this.fAddr ||
    (this.fMapFd && (this.fFl.out || (this.fFl.in_ && this.fFileLength = 0 && this.fLength = 0)))

def putOffset (this : MmapStreamBuf) : Int :=
  if this.fAddr && (0 < this.pptr || 0 < this.fMapOffset) then
    this.pptr + this.fMapOffset
  else 0

def getOffset (this : MmapStreamBuf) : Int := if this.fAddr && 0 < this.gptr then this.gptr else 0

/-- The window begins one page below the put position of a stream that only
writes. -/
def windowOffset (pageSize : Nat) (this : MmapStreamBuf) (putoffset : Int) : Int :=
  if this.fFl.out && !this.fFl.in_ && 0 < putoffset then
    roundDown pageSize putoffset
  else this.fMapOffset

def mmap (pageSize : Nat) (length offset : Int) : Bool :=
  0 < length && 0 ≤ offset && offset % pageSize = 0

/-- The put position for append mode, and the mode that is left. -/
def atEnd (this : MmapStreamBuf) (putoffset : Int) : Int × OpenMode :=
  if (this.fFl.app || this.fFl.ate) && putoffset < this.fFileLength then
    (this.fFileLength, { this.fFl with ate := false })
  else (putoffset, this.fFl)

/-- The pointers in the window, from the given offsets. -/
def setPointers (this : MmapStreamBuf) (getoffset putoffset : Int) : MmapStreamBuf :=
  let (putoffset, fFl) := this.atEnd putoffset
  { this with
    fFl := fFl
    gptr := getoffset
    egptr := this.fFileLength - this.fMapOffset
    pptr := asInt (putoffset - this.fMapOffset)
    epptr := this.fLength - this.fMapOffset }

/-- The window is mapped where the pointers are. -/
def xinit (pageSize : Nat) (this : MmapStreamBuf) : Bool × MmapStreamBuf :=
  let putoffset := this.putOffset
  let getoffset := this.getOffset
  let this := { this with
    fFileLength := max this.fFileLength putoffset
    fLength := this.file.length
    fAddr := false }
  if 0 < this.fLength then
    let this := { this with
      fMapOffset := windowOffset pageSize this putoffset }
    if mmap pageSize (this.fLength - this.fMapOffset) this.fMapOffset then
      let this := { this with fAddr := true }.setPointers getoffset putoffset
      (this.isvalid, this)
    else
      (false, { this with fMapOffset := 0, fLength := 0, fMapFd := false })
  else
    let this := this.setPointers getoffset putoffset
    (this.isvalid, this)

/-- The file is made longer, by whole pages. -/
def reserve (pageSize : Nat) (this : MmapStreamBuf) (newlength : Int) :
    Option (Bool × MmapStreamBuf) :=
  if this.fLength < newlength then
    if this.epptr = this.fLength - this.fMapOffset then
      if this.fFl.out then
        let roundedlength := roundUp pageSize newlength
        some (xinit pageSize { this with
          file := writeAt 0 this.file (roundedlength - 1).toNat 0 })
      else some (false, this)
    else none
  else some (true, this)

def store (this : MmapStreamBuf) (c : Byte) : Option MmapStreamBuf :=
  if this.fAddr ∧ 0 ≤ this.pptr ∧ this.pptr + this.fMapOffset < this.file.length then
    some { this with
      file := this.file.set (this.pptr + this.fMapOffset).toNat c
      pptr := this.pptr + 1 }
  else none

/-- A character behind the window makes it move on. -/
def overflow (pageSize : Nat) (this : MmapStreamBuf) (c : Byte) : Option (Bool × MmapStreamBuf) :=
  if 0 ≤ this.pptr ∧ (this.fAddr = false → this.pptr = 0) then do
    let (ok, this) ← this.reserve pageSize (this.pptr + 1 + this.fMapOffset)
    if ok then
      if this.pptr < this.epptr then (this.store c).map (true, ·) else none
    else
      some (false, { this with
        pptr := 0
        epptr := this.fLength - this.fMapOffset })
  else none

def sputc (pageSize : Nat) (this : MmapStreamBuf) (c : Byte) : Option (Bool × MmapStreamBuf) :=
  if this.pptr < this.epptr then (this.store c).map (true, ·)
  else this.overflow pageSize c

def syncOutput (this : MmapStreamBuf) : MmapStreamBuf := this.adjustFileLength

def sync (this : MmapStreamBuf) : MmapStreamBuf := if this.fFl.out then this.syncOutput else this

def setPositions (pageSize : Nat) (this : MmapStreamBuf) (p : Int)
    (mode : OpenMode) : MmapStreamBuf × Int :=
  let this :=
    if mode.in_ then
      { this with gptr := p, egptr := this.fFileLength - this.fMapOffset }
    else this
  if mode.out then
    let p :=
      if this.fFl.app && p < this.fFileLength && 0 < this.fFileLength then
        this.fFileLength
      else p
    let this := { this with
      pptr := asInt (p - this.fMapOffset)
      epptr := this.fLength - this.fMapOffset }
    if 0 < this.fMapOffset && p - this.fMapOffset < 0 then
      ((this.xinit pageSize).2, p)
    else (this, p)
  else (this, p)

/-- A position behind the file makes it longer, if it is written to. -/
def seekpos (pageSize : Nat) (this : MmapStreamBuf) (p : Int)
    (mode : OpenMode) : Option (MmapStreamBuf × Int) := do
  let this := this.adjustFileLength
  if this.fLength < p then
    if mode.out then
      let (ok, this) ← this.reserve pageSize p
      if ok then some (this.setPositions pageSize p mode)
      else some (this, eof)
    else some (this, eof)
  else some (this.setPositions pageSize p mode)

def target (this : MmapStreamBuf) (off : Int) (dir : SeekDir) (mode : OpenMode) : Int :=
  off + match dir with
    | .beg => 0
    | .cur => (if mode.in_ then this.gptr else this.pptr) + this.fMapOffset
    | .end_ => if 0 < this.fFileLength then this.fFileLength else 0

def seekoff (pageSize : Nat) (this : MmapStreamBuf) (off : Int)
    (dir : SeekDir) (mode : OpenMode) : Option (MmapStreamBuf × Int) :=
  if this.target off dir mode < 0 then some (this, eof)
  else this.seekpos pageSize (this.target off dir mode) mode

/-- The file is opened and its first window is mapped. -/
def open_ (pageSize : Nat) (file : Bytes) (mode : OpenMode) : Option MmapStreamBuf :=
  let fFl := mode.magic
  let file := if fFl.trunc then [] else file
  let (ok, this) := xinit pageSize
    { file, fFl, fMapFd := true, fLength := file.length, fMapOffset := 0,
      fFileLength := file.length, fAddr := false, gptr := 0, egptr := 0,
      pptr := 0, epptr := 0 }
  if ok then
    if this.fFileLength = 0 && mode.out then
      (this.reserve pageSize 16).map Prod.snd
    else some this
  else none

def close (this : MmapStreamBuf) : Bytes :=
  let this := this.sync
  if this.fMapFd && this.fFl.out && this.fFileLength ≠ this.fLength then
    resize 0 this.file this.fFileLength.toNat
  else this.file

end MmapStreamBuf

structure PlainFile where
  bytes : Bytes
  pos : Nat
  append : Bool
  deriving DecidableEq, Repr

/-- A call of somebody who writes to the file. -/
inductive FileCall where
  | put (c : Byte)
  | seekpos (p : Int)
  | seekoff (off : Int) (dir : SeekDir)
  | sync
  deriving DecidableEq, Repr

namespace PlainFile

def opened (file : Bytes) (mode : OpenMode) : PlainFile :=
  let bytes := if mode.magic.trunc then [] else file
  ⟨bytes, if mode.app || mode.ate then bytes.length else 0, mode.app⟩

/-- A seek to a position that there is; in append mode it does not go in front
of the end. -/
def seek (this : PlainFile) (p : Int) : PlainFile :=
  if p < 0 then this
  else
    { this with
      pos := if this.append then max p.toNat this.bytes.length else p.toNat }

def target (this : PlainFile) (off : Int) : SeekDir → Int
  | .beg => off
  | .cur => off + this.pos
  | .end_ => off + this.bytes.length

def step (this : PlainFile) : FileCall → PlainFile
  | .put c =>
    { this with bytes := writeAt 0 this.bytes this.pos c, pos := this.pos + 1 }
  | .seekpos p => this.seek p
  | .seekoff off dir => this.seek (this.target off dir)
  | .sync => this

end PlainFile

def seekOut : OpenMode := ⟨false, true, false, false, false⟩

/-- A stream in use and the plain file with the same calls. -/
structure MmapStream where
  buf : MmapStreamBuf
  plain : PlainFile
  deriving DecidableEq, Repr

namespace MmapStream

variable (pageSize : Nat)

def open_ (file : Bytes) (mode : OpenMode) : Option MmapStream := do
  let buf ← MmapStreamBuf.open_ pageSize file mode
  some ⟨buf, .opened file mode⟩

def bufStep (this : MmapStreamBuf) : FileCall → Option MmapStreamBuf
  | .put c => (this.sputc pageSize c).map Prod.snd
  | .seekpos p => (this.seekpos pageSize p seekOut).map Prod.fst
  | .seekoff off dir => (this.seekoff pageSize off dir seekOut).map Prod.fst
  | .sync => some this.sync

def step (this : MmapStream) (call : FileCall) : Option MmapStream := do
  let buf ← bufStep pageSize this.buf call
  some ⟨buf, this.plain.step call⟩

end MmapStream

/-!
## The window of a mapped file

Mapping the file again keeps the put position, as long as the position is
known: the code does not move the window when the position is the start of the
file.
-/

namespace MmapStreamBuf

open PaddedText StringStreamBuf

variable {pageSize : Nat}

theorem roundDown_le (page : 0 < pageSize) {pos : Int} (nonneg : 0 ≤ pos) :
    roundDown pageSize pos ≤ pos := by
  unfold roundDown
  rw [Int.tdiv_eq_ediv_of_nonneg nonneg]
  exact Int.ediv_mul_le pos (by omega)

theorem lt_roundDown_add (page : 0 < pageSize) {pos : Int}
    (nonneg : 0 ≤ pos) : pos < roundDown pageSize pos + pageSize := by
  have size : (0 : Int) < pageSize := by omega
  have above := Int.lt_ediv_add_one_mul_self pos size
  unfold roundDown
  rw [Int.tdiv_eq_ediv_of_nonneg nonneg]
  rwa [Int.add_mul, Int.one_mul] at above

theorem roundDown_nonneg {pos : Int} (nonneg : 0 ≤ pos) : 0 ≤ roundDown pageSize pos := by
  unfold roundDown
  rw [Int.tdiv_eq_ediv_of_nonneg nonneg]
  exact Int.mul_nonneg (Int.ediv_nonneg nonneg (Int.natCast_nonneg _)) (Int.natCast_nonneg _)

theorem roundDown_aligned (pos : Int) : roundDown pageSize pos % pageSize = 0 :=
  Int.mul_emod_left _ _

theorem roundDown_zero : roundDown pageSize 0 = 0 := by
  unfold roundDown
  rw [Int.zero_tdiv, Int.zero_mul]

theorem le_roundUp (page : 0 < pageSize) {pos : Int} (positive : 0 < pos) :
    pos ≤ roundUp pageSize pos := by
  have size : (0 : Int) < pageSize := by omega
  have above := Int.lt_ediv_add_one_mul_self (pos - 1) size
  unfold roundUp
  rw [Int.tdiv_eq_ediv_of_nonneg (by omega)]
  omega

theorem asInt_of_fits {n : Int} (low : -2 ^ 31 ≤ n) (high : n < 2 ^ 31) : asInt n = n := by
  unfold asInt
  omega

/-- Where the window begins when the put position is `pos`. -/
def windowFor (pageSize : Nat) (fFl : OpenMode) (pos : Int) : Int :=
  if fFl.in_ then 0 else roundDown pageSize pos

/-- The put position is known from the pointers, and the window can be
moved to it. -/
structure Placed (this : MmapStreamBuf) (pos : Int) : Prop where
  isOpen : this.fMapFd = true
  out : this.fFl.out = true
  nonneg : 0 ≤ pos
  pptr_eq : this.pptr = pos - this.fMapOffset
  offset_nonneg : 0 ≤ this.fMapOffset
  unmapped : this.fAddr = false → pos = 0 ∧ this.fMapOffset = 0
  in_offset : this.fFl.in_ = true → this.fMapOffset = 0
  top : pos = 0 → this.fMapOffset = 0

def putAfter (this : MmapStreamBuf) (pos : Int) : Int :=
  if this.fFl.app || this.fFl.ate then max this.fFileLength pos else pos

/-- What `xinit` makes of a stream. -/
structure Remapped (pageSize : Nat) (this after : MmapStreamBuf) (pos : Int) : Prop where
  file_eq : after.file = this.file
  isOpen : after.fMapFd = true
  mapped : after.fAddr = true
  fLength_eq : after.fLength = this.file.length
  fMapOffset_eq : after.fMapOffset = windowFor pageSize this.fFl pos
  fFileLength_eq : after.fFileLength = max this.fFileLength pos
  epptr_eq : after.epptr = after.fLength - after.fMapOffset
  fFl_eq : after.fFl = this.fFl ∨ after.fFl = { this.fFl with ate := false }
  pptr_eq : after.pptr = asInt (putAfter this pos - after.fMapOffset)

theorem windowFor_le (page : 0 < pageSize) (fFl : OpenMode) {pos : Int}
    (nonneg : 0 ≤ pos) : windowFor pageSize fFl pos ≤ pos := by
  unfold windowFor
  split
  · exact nonneg
  · exact roundDown_le page nonneg

theorem windowFor_nonneg (fFl : OpenMode) {pos : Int} (nonneg : 0 ≤ pos) :
    0 ≤ windowFor pageSize fFl pos := by
  unfold windowFor
  split
  · exact Int.le_refl 0
  · exact roundDown_nonneg nonneg

theorem windowFor_zero (fFl : OpenMode) : windowFor pageSize fFl 0 = 0 := by
  unfold windowFor
  split
  · rfl
  · exact roundDown_zero

theorem windowFor_aligned (fFl : OpenMode) (pos : Int) :
    windowFor pageSize fFl pos % pageSize = 0 := by
  unfold windowFor
  split
  · exact Int.zero_emod _
  · exact roundDown_aligned pos

section

variable {this : MmapStreamBuf} {pos : Int}

section

variable (placed : Placed this pos)
include placed

theorem Placed.putOffset_eq : this.putOffset = pos := by
  have putIs := placed.pptr_eq
  have offset := placed.offset_nonneg
  have nonneg := placed.nonneg
  unfold putOffset
  split
  · omega
  · rename_i atStart
    cases mapped : this.fAddr with
    | false => exact (placed.unmapped mapped).1.symm
    | true =>
      simp only [mapped, Bool.true_and, Bool.or_eq_true, decide_eq_true_eq] at atStart
      omega

theorem Placed.windowOffset_eq :
    windowOffset pageSize this pos = windowFor pageSize this.fFl pos := by
  unfold windowOffset windowFor
  rw [placed.out, Bool.true_and]
  cases reads : this.fFl.in_ with
  | true => exact placed.in_offset reads
  | false =>
    by_cases positive : 0 < pos
    · rw [if_pos (by simpa using positive)]
      rfl
    · have zero : pos = 0 := by
        have nonneg := placed.nonneg
        omega
      rw [if_neg (by simpa using positive), zero, placed.top zero]
      exact roundDown_zero.symm

theorem Placed.withFile (file : Bytes) : Placed { this with file := file } pos :=
  ⟨placed.isOpen, placed.out, placed.nonneg, placed.pptr_eq,
    placed.offset_nonneg, placed.unmapped, placed.in_offset, placed.top⟩

theorem Placed.withFileLength (n : Int) : Placed { this with fFileLength := n } pos :=
  ⟨placed.isOpen, placed.out, placed.nonneg, placed.pptr_eq,
    placed.offset_nonneg, placed.unmapped, placed.in_offset, placed.top⟩

theorem xinit_remapped (long : windowFor pageSize this.fFl pos < this.file.length) :
    ∃ after, this.xinit pageSize = (true, after) ∧ Remapped pageSize this after pos := by
  have nonneg : 0 ≤ windowFor pageSize this.fFl pos := windowFor_nonneg this.fFl placed.nonneg
  have aligned : windowFor pageSize this.fFl pos % pageSize = 0 := windowFor_aligned this.fFl pos
  have window : ∀ fLength fFileLength : Int, windowOffset pageSize
      { this with
        fFileLength := fFileLength
        fLength := fLength
        fAddr := false } pos = windowFor pageSize this.fFl pos :=
    fun _ _ => placed.windowOffset_eq
  have maps : mmap pageSize (this.file.length - windowFor pageSize this.fFl pos)
      (windowFor pageSize this.fFl pos) = true := by
    unfold mmap
    simp only [Bool.and_eq_true, decide_eq_true_eq]
    exact ⟨⟨by omega, nonneg⟩, aligned⟩
  unfold xinit
  dsimp only
  rw [placed.putOffset_eq, if_pos (by omega), window, if_pos maps]
  refine ⟨_, Prod.ext rfl rfl, rfl, placed.isOpen, rfl, rfl, rfl, rfl, rfl, ?_, ?_⟩
  · unfold setPointers atEnd
    dsimp only
    split
    · exact .inr rfl
    · exact .inl rfl
  · unfold setPointers atEnd putAfter
    dsimp only
    cases appends : this.fFl.app || this.fFl.ate with
    | false =>
      rw [Bool.false_and, if_neg Bool.false_ne_true, if_neg Bool.false_ne_true]
    | true =>
      rw [Bool.true_and, if_pos rfl]
      split
      · rfl
      · rename_i behind
        rw [decide_eq_true_eq] at behind
        have same : max this.fFileLength pos = pos := by omega
        rw [same]

end

theorem Remapped.placed {after : MmapStreamBuf} {p : Int}
    (remapped : Remapped pageSize this after pos) (placed : Placed this pos)
    (nonneg : 0 ≤ p) (putIs : after.pptr = p - after.fMapOffset)
    (top : p = 0 → after.fMapOffset = 0) : Placed after p := by
  have sameIn : after.fFl.in_ = this.fFl.in_ := by
    rcases remapped.fFl_eq with same | same <;> rw [same]
  constructor
  · exact remapped.isOpen
  · rcases remapped.fFl_eq with same | same <;> rw [same] <;> exact placed.out
  · exact nonneg
  · exact putIs
  · rw [remapped.fMapOffset_eq]
    exact windowFor_nonneg this.fFl placed.nonneg
  · intro unmapped
    rw [remapped.mapped] at unmapped
    cases unmapped
  · intro reads
    rw [remapped.fMapOffset_eq]
    unfold windowFor
    rw [← sameIn, if_pos reads]
  · exact top

/-- More room is found by a longer file, with the window mapped anew. -/
theorem reserve_grows (page : 0 < pageSize) (placed : Placed this pos)
    (epptrIs : this.epptr = this.fLength - this.fMapOffset)
    (lengthIs : this.fLength = this.file.length) (inside : pos ≤ this.fLength) {newlength : Int}
    (more : this.fLength < newlength) :
    ∃ grown after, this.reserve pageSize newlength = some (true, after) ∧
      Remapped pageSize { this with file := grown } after pos ∧
      newlength ≤ grown.length ∧
      ∀ text, Shows 0 this.file text → Shows 0 grown text := by
  obtain ⟨grown, isGrown⟩ : ∃ grown, grown =
      writeAt 0 this.file (roundUp pageSize newlength - 1).toNat 0 := ⟨_, rfl⟩
  have above : newlength ≤ roundUp pageSize newlength := le_roundUp page (by omega)
  have length : newlength ≤ grown.length := by
    rw [isGrown, length_writeAt]
    omega
  have window := windowFor_le page this.fFl placed.nonneg
  have placed' : Placed { this with file := grown } pos :=
    ⟨placed.isOpen, placed.out, placed.nonneg, placed.pptr_eq,
      placed.offset_nonneg, placed.unmapped, placed.in_offset, placed.top⟩
  have long : windowFor pageSize this.fFl pos < grown.length := by omega
  rcases xinit_remapped placed' long with ⟨after, maps, remapped⟩
  refine ⟨grown, after, ?_, remapped, length, ?_⟩
  · unfold reserve
    rw [if_pos more, if_pos epptrIs, if_pos placed.out, ← maps, isGrown]
  · intro text shows'
    rw [isGrown]
    exact shows'.grow (by omega)

end

end MmapStreamBuf

end Coast
