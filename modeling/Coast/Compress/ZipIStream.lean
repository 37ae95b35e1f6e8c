import Coast.Compress.ZipOStream

/-!
# Compressed input streams

`ZipIStreamBuf` in gzip mode reads a header, refills its get area with what
zlib inflates, and compares the checksum and the length behind the compressed
text when it is closed.  Headers with optional fields are not modelled.
-/

namespace Coast

def EOF : Int := -1

structure ZipIStreamBuf (z : Zlib) where
  /-- What is left of the stream below. -/
  fIs : Bytes
  fIsGood : Bool
  isInitialized : Bool
  fCrcData : Nat
  fZip : z.Inflate
  total_out : Nat
  /-- The compressed bytes that zlib did not take yet. -/
  avail_in : Bytes
  getArea : Bytes
  fZipErr : Int
  badbit : Bool
  failbit : Bool
  eofbit : Bool
  isOpen : Bool

namespace ZipIStreamBuf

variable {z : Zlib} (capacity : Nat)

def create (fIs : Bytes) : ZipIStreamBuf z where
  fIs := fIs
  fIsGood := true
  isInitialized := false
  fCrcData := 0
  fZip := z.inflateInit
  total_out := 0
  avail_in := []
  getArea := []
  fZipErr := Z_OK
  badbit := false
  failbit := false
  eofbit := false
  isOpen := true

def isValid (header : Bytes) : Bool := header.length = 10 ∧ header.take 2 = [0x1f, 0x8b]

/-- The first read checks the header; a stream without a valid one is bad. -/
def zipinit (this : ZipIStreamBuf z) : ZipIStreamBuf z :=
  if this.isInitialized then this
  else
    let valid := isValid (this.fIs.take 10)
    { this with
      isInitialized := true
      fIs := this.fIs.drop 10
      fIsGood := this.fIsGood && decide (10 ≤ this.fIs.length)
      fZip := z.inflateInit
      total_out := 0
      avail_in := []
      badbit := this.badbit || !valid
      fZipErr := if valid then Z_OK else Z_DATA_ERROR
      fCrcData := z.crc32 0 [] }

def fillCompressed (this : ZipIStreamBuf z) : ZipIStreamBuf z :=
  if this.avail_in = [] ∧ this.fIsGood then
    { this with
      avail_in := this.fIs.take capacity
      fIs := this.fIs.drop capacity
      fIsGood := capacity ≤ this.fIs.length }
  else this

/-- The loop of `runInflate`, with what has been put out so far. -/
def inflateLoop : Nat → ZipIStreamBuf z → Bytes → Option (Bytes × ZipIStreamBuf z)
  | 0, _, _ => none
  | fuel + 1, this, out =>
    if this.fZipErr = Z_OK ∧ this.avail_in ≠ [] ∧ out.length < capacity then
      let called := z.inflate this.fZip this.avail_in (capacity - out.length)
      inflateLoop fuel { this with
        fZip := called.state
        avail_in := this.avail_in.drop called.consumed
        fZipErr := called.err } (out ++ called.out)
    else some (out, this)

def runInflate (this : ZipIStreamBuf z) : Option (ZipIStreamBuf z) := do
  let (out, this) ← inflateLoop capacity (this.avail_in.length + capacity + 1) this []
  some { this with
    badbit := this.badbit || decide (this.fZipErr ≠ Z_OK ∧ this.fZipErr ≠ Z_STREAM_END)
    getArea := out
    total_out := this.total_out + out.length
    fCrcData := z.crc32 this.fCrcData out }

/-- The buffer is filled again, and the end of the file or of the text is told. -/
def sync (this : ZipIStreamBuf z) : Option (Int × ZipIStreamBuf z) := do
  let this := this.zipinit
  let this ←
    if this.fZipErr = Z_OK ∧ this.getArea = [] then
      (this.fillCompressed capacity).runInflate capacity
    else some this
  if this.fIsGood = false ∧ this.avail_in = [] ∧ this.fZipErr = Z_OK then
    some (-1, { this with failbit := true })
  else if this.fZipErr = Z_OK ∨ this.fZipErr = Z_STREAM_END then
    some (0, this)
  else some (-1, this)

def atEnd (this : ZipIStreamBuf z) : ZipIStreamBuf z :=
  { this with failbit := true, eofbit := true }

/-- `*gptr()` as an `int`, with its sign, or the end of file. -/
def current (this : ZipIStreamBuf z) : Int × ZipIStreamBuf z :=
  match this.getArea with
  | [] => (EOF, this.atEnd)
  | byte :: _ => (byte.toInt, this)

def underflow (this : ZipIStreamBuf z) : Option (Int × ZipIStreamBuf z) :=
  if this.getArea = [] ∧ this.fZipErr ≠ Z_STREAM_END then do
    let (failed, this) ← this.sync capacity
    some (if failed ≠ 0 then (EOF, this.atEnd) else this.current)
  else some this.current

def next (this : ZipIStreamBuf z) : Option Byte × ZipIStreamBuf z :=
  match this.getArea with
  | [] => (none, this)
  | byte :: rest => (some byte, { this with getArea := rest })

def uflow (this : ZipIStreamBuf z) : Option (Option Byte × ZipIStreamBuf z) :=
  do
    let (c, this) ← this.underflow capacity
    some (if c = EOF then (none, this) else this.next)

def sbumpc (this : ZipIStreamBuf z) : Option (Option Byte × ZipIStreamBuf z) :=
  if this.getArea = [] then this.uflow capacity else some this.next

def sgetn : Nat → ZipIStreamBuf z → Option (Bytes × ZipIStreamBuf z)
  | 0, this => some ([], this)
  | n + 1, this => do
      let (c, this) ← this.sbumpc capacity
      match c with
      | none => some ([], this)
      | some byte =>
        let (s, this) ← sgetn n this
        some (byte :: s, this)

def read (n : Nat) (this : ZipIStreamBuf z) : Option (Bytes × ZipIStreamBuf z) := do
  let (s, this) ← this.sgetn capacity n
  some (s, if s.length < n then this.atEnd else this)

/-- Reads of the given lengths, up to the first that gets less. -/
def readBlocks : List Nat → ZipIStreamBuf z → Option (Bytes × ZipIStreamBuf z)
  | [], this => some ([], this)
  | n :: ns, this => do
      let (s, this) ← this.read capacity n
      if s.length < n then some (s, this)
      else
        let (t, this) ← readBlocks ns this
        some (s ++ t, this)

/-- The byte at `n` of an `unsigned long`.  It is shifted as an `int`, whose
sign is extended; a shift out of the `int` is undefined. -/
def shifted (byte : Byte) (n : Nat) : Option Nat :=
  if byte.toNat * 2 ^ (8 * n) < 2 ^ 31 then some (byte.toNat * 2 ^ (8 * n))
  else if n < 4 then some (byte.toNat * 2 ^ (8 * n) + (2 ^ 64 - 2 ^ 32))
  else none

/-- The bytes of a trailer number, least significant first. -/
def getLongFrom : Nat → Nat → Nat → ZipIStreamBuf z → Option (Nat × ZipIStreamBuf z)
  | 0, _, value, this => some (value, this)
  | left + 1, n, value, this =>
    let this := if this.avail_in.length < 1 then this.fillCompressed capacity else this
    match this.avail_in with
    | [] => none
    | byte :: rest => do
        let more ← shifted byte n
        getLongFrom left (n + 1) ((value + more) % 2 ^ 64) { this with avail_in := rest }

def getLong (this : ZipIStreamBuf z) : Option (Nat × ZipIStreamBuf z) :=
  getLongFrom capacity 8 0 0 this

/-- The trailer is read and compared with the check sum and the length. -/
def close (this : ZipIStreamBuf z) : Option (ZipIStreamBuf z) :=
  if !this.isOpen then some this
  else do
    let (crc, this) ← this.getLong capacity
    let (len, this) ← this.getLong capacity
    let this :=
      if crc ≠ this.fCrcData ∨ this.total_out % 2 ^ 64 ≠ len then
        { this with badbit := true }
      else this
    some { this with
      fZipErr :=
        if this.fZipErr = Z_STREAM_END ∨ this.fZipErr = Z_OK then Z_OK
        else this.fZipErr
      isOpen := false }

end ZipIStreamBuf

/-!
## Refilling the get area

The bytes behind a header are a compressed text and a trailer.  A refill goes
on in the text and in the data, or reaches the end of both.
-/

namespace ZipIStreamBuf

open List

variable {z : Zlib} {capacity : Nat} {data text trailer : Bytes}

/-- Zlib took `c` of the text and gave `o`. -/
structure Reading (text trailer : Bytes) (this : ZipIStreamBuf z) (c o : Bytes) : Prop where
  isInitialized : this.isInitialized = true
  isOpen : this.isOpen = true
  received : z.Received text this.fZip c o
  inside : c <+: text
  rest : c ++ (this.avail_in ++ this.fIs) = text ++ trailer
  dry : this.fIsGood = false → this.fIs = []
  crc : this.fCrcData = z.crc32 0 o
  total_out : this.total_out = o.length
  fZipErr : this.fZipErr = Z_OK
  badbit : this.badbit = false

/-- All of the text has been inflated, and the trailer is left. -/
structure Ended (data trailer : Bytes) (this : ZipIStreamBuf z) : Prop where
  isInitialized : this.isInitialized = true
  isOpen : this.isOpen = true
  rest : this.avail_in ++ this.fIs = trailer
  dry : this.fIsGood = false → this.fIs = []
  crc : this.fCrcData = z.crc32 0 data
  total_out : this.total_out = data.length
  fZipErr : this.fZipErr = Z_STREAM_END
  badbit : this.badbit = false

/-- After `sync` the text has ended, or more of it has been read. -/
inductive Refilled (data text trailer c o : Bytes) (after : ZipIStreamBuf z) : Prop
  | ended (ended : Ended data trailer after) (all : o ++ after.getArea = data)
  | reading {c' : Bytes} (reading : Reading text trailer after c' (o ++ after.getArea))
      (right : o ++ after.getArea <+: data) (progress : c.length < c'.length + after.getArea.length)
      (longer : c.length ≤ c'.length)

/-- The get area holds what zlib answered to the next block. -/
structure Answered (capacity : Nat) (this after : ZipIStreamBuf z) : Prop where
  fZip : after.fZip = (z.answer capacity this.fZip this.avail_in this.fIs).state
  avail_in : after.avail_in = z.untaken capacity this.fZip this.avail_in this.fIs
  fIs : after.fIs = Zlib.below capacity this.avail_in this.fIs
  getArea : after.getArea = (z.answer capacity this.fZip this.avail_in this.fIs).out
  fZipErr : after.fZipErr = (z.answer capacity this.fZip this.avail_in this.fIs).err

section

variable {this : ZipIStreamBuf z} {c o : Bytes}

theorem Reading.some_left (reading : Reading text trailer this c o)
    (behind : trailer ≠ []) : this.avail_in ++ this.fIs ≠ [] := by
  intro nothing
  have lengths := congrArg List.length reading.rest
  rw [nothing, append_nil, length_append] at lengths
  have inside := reading.inside.length_le
  have long := length_pos_iff.mpr behind
  omega

theorem fillCompressed_spec (dry : this.fIsGood = false → this.fIs = [])
    (positive : 0 < capacity) (left : this.avail_in ++ this.fIs ≠ []) :
    ∃ avail_in fIs fIsGood, this.fillCompressed capacity = { this with
        avail_in := avail_in
        fIs := fIs
        fIsGood := fIsGood } ∧
      avail_in ++ fIs = this.avail_in ++ this.fIs ∧ avail_in ≠ [] ∧
      (fIsGood = false → fIs = []) := by
  rw [ZipIStreamBuf.fillCompressed]
  split
  · rename_i fills
    rw [fills.1, nil_append] at left ⊢
    refine ⟨_, _, _, rfl, take_append_drop capacity this.fIs, ?_, ?_⟩
    · intro nothing
      have long := length_pos_iff.mpr left
      have none := congrArg List.length nothing
      rw [length_take, length_nil] at none
      omega
    · intro notGood
      have short : ¬ capacity ≤ this.fIs.length := of_decide_eq_false notGood
      exact drop_eq_nil_of_le (by omega)
  · rename_i stays
    refine ⟨this.avail_in, this.fIs, this.fIsGood, rfl, rfl, ?_, dry⟩
    intro nothing
    cases good : this.fIsGood with
    | false =>
      rw [nothing, dry good] at left
      exact left rfl
    | true => exact stays ⟨nothing, good⟩

theorem fillCompressed_block (capacity : Nat) (dry : this.fIsGood = false → this.fIs = []) :
    (this.fillCompressed capacity).avail_in = Zlib.block capacity this.avail_in this.fIs ∧
      (this.fillCompressed capacity).fIs = Zlib.below capacity this.avail_in this.fIs ∧
      (this.fillCompressed capacity).fZip = this.fZip := by
  unfold ZipIStreamBuf.fillCompressed Zlib.block Zlib.below
  by_cases nothing : this.avail_in = []
  · cases good : this.fIsGood with
    | true => simp [nothing]
    | false => simp [nothing, dry good]
  · simp [nothing]

theorem Reading.fillCompressed (reading : Reading text trailer this c o)
    (behind : trailer ≠ []) (positive : 0 < capacity) :
    Reading text trailer (this.fillCompressed capacity) c o ∧
      (this.fillCompressed capacity).avail_in ≠ [] := by
  rcases fillCompressed_spec reading.dry positive (reading.some_left behind)
    with ⟨avail_in, fIs, fIsGood, filled, same, some_in, dry⟩
  rw [filled]
  refine ⟨{ reading with rest := ?_, dry := dry }, some_in⟩
  rw [← reading.rest, ← same]

theorem inflateLoop_once (isOk : this.fZipErr = Z_OK)
    (some_in : this.avail_in ≠ []) (positive : 0 < capacity) (called : Called z.Inflate)
    (isCalled : called = z.inflate this.fZip this.avail_in capacity)
    (stops : called.err ≠ Z_OK ∨ called.consumed = this.avail_in.length ∨
      called.out.length = capacity) (n : Nat) :
    inflateLoop capacity (n + 2) this [] = some (called.out, { this with
      fZip := called.state
      avail_in := this.avail_in.drop called.consumed
      fZipErr := called.err }) := by
  have ends : ¬ (called.err = Z_OK ∧ this.avail_in.drop called.consumed ≠ [] ∧
      ([] ++ called.out).length < capacity) := by
    rintro ⟨ok, more, room⟩
    rcases stops with bad | all | full
    · exact bad ok
    · exact more (drop_eq_nil_of_le (Nat.le_of_eq all.symm))
    · rw [nil_append] at room
      omega
  have goes : this.fZipErr = Z_OK ∧ this.avail_in ≠ [] ∧
      ([] : Bytes).length < capacity := ⟨isOk, some_in, positive⟩
  rw [inflateLoop, if_pos goes]
  dsimp only [length_nil, Nat.sub_zero]
  rw [← isCalled, inflateLoop, if_neg ends, nil_append]

theorem runInflate_once (isOk : this.fZipErr = Z_OK)
    (some_in : this.avail_in ≠ []) (positive : 0 < capacity) (called : Called z.Inflate)
    (isCalled : called = z.inflate this.fZip this.avail_in capacity)
    (stops : called.err ≠ Z_OK ∨ called.consumed = this.avail_in.length ∨
      called.out.length = capacity) :
    this.runInflate capacity = some { this with
      fZip := called.state
      avail_in := this.avail_in.drop called.consumed
      fZipErr := called.err
      badbit := this.badbit || decide (called.err ≠ Z_OK ∧ called.err ≠ Z_STREAM_END)
      getArea := called.out
      total_out := this.total_out + called.out.length
      fCrcData := z.crc32 this.fCrcData called.out } := by
  have long := length_pos_iff.mpr some_in
  obtain ⟨n, fuel⟩ : ∃ n, this.avail_in.length + capacity + 1 = n + 2 :=
    ⟨this.avail_in.length + capacity - 1, by omega⟩
  have loops := inflateLoop_once isOk some_in positive called isCalled stops n
  rw [ZipIStreamBuf.runInflate, fuel, loops]
  rfl

theorem sync_answered {err : Int} {after : ZipIStreamBuf z} (isOk : this.zipinit.fZipErr = Z_OK)
    (empty : this.zipinit.getArea = [])
    (dry : this.zipinit.fIsGood = false → this.zipinit.fIs = [])
    (some_in : Zlib.block capacity this.zipinit.avail_in this.zipinit.fIs ≠ [])
    (positive : 0 < capacity)
    (inflates : Zlib.Inflates data text c o
      (Zlib.block capacity this.zipinit.avail_in this.zipinit.fIs) capacity
      (z.answer capacity this.zipinit.fZip this.zipinit.avail_in this.zipinit.fIs))
    (syncs : this.sync capacity = some (err, after)) : Answered capacity this.zipinit after := by
  rcases fillCompressed_block capacity dry with ⟨area, isBelow, sameZip⟩
  have sameErr : (this.zipinit.fillCompressed capacity).fZipErr = this.zipinit.fZipErr := by
    unfold ZipIStreamBuf.fillCompressed
    split <;> rfl
  have isCalled : z.answer capacity this.zipinit.fZip this.zipinit.avail_in this.zipinit.fIs =
      z.inflate (this.zipinit.fillCompressed capacity).fZip
        (this.zipinit.fillCompressed capacity).avail_in capacity := by
    rw [area, sameZip]
    rfl
  have stops := inflates.stops
  rw [← area] at some_in stops
  have runs := runInflate_once (sameErr.trans isOk) some_in positive _ isCalled stops
  unfold ZipIStreamBuf.sync at syncs
  simp only [if_pos (And.intro isOk empty), runs, Option.bind_eq_bind, Option.bind_some] at syncs
  rw [area, isBelow] at syncs
  split at syncs
  · cases syncs
    exact ⟨rfl, rfl, rfl, rfl, rfl⟩
  · split at syncs
    · cases syncs
      exact ⟨rfl, rfl, rfl, rfl, rfl⟩
    · cases syncs
      exact ⟨rfl, rfl, rfl, rfl, rfl⟩

theorem Reading.inflates (reading : Reading text trailer this c o)
    (encodes : z.Encodes data text) (some_in : this.avail_in ≠ []) (positive : 0 < capacity) :
    Zlib.Inflates data text c o this.avail_in capacity
      (z.inflate this.fZip this.avail_in capacity) ∧
    Zlib.Agrees text c this.avail_in := by
  have agrees : Zlib.Agrees text c this.avail_in := by
    refine ⟨trailer, this.fIs, ?_⟩
    rw [append_assoc, reading.rest]
  exact ⟨encodes _ _ _ reading.received _ _ agrees some_in positive, agrees⟩

theorem Reading.runInflate (reading : Reading text trailer this c o) (contract : z.Contract)
    (encodes : z.Encodes data text) (some_in : this.avail_in ≠ []) (positive : 0 < capacity) :
    ∃ after, this.runInflate capacity = some after ∧ Refilled data text trailer c o after := by
  rcases reading.inflates encodes some_in positive with ⟨inflates, agrees⟩
  have received := fun goesOn =>
    Zlib.Received.call reading.received agrees some_in positive goesOn
  obtain ⟨called, isCalled⟩ : ∃ called,
      called = z.inflate this.fZip this.avail_in capacity := ⟨_, rfl⟩
  rw [← isCalled] at inflates received
  have runs := runInflate_once reading.fZipErr some_in positive called isCalled inflates.stops
  have crc : z.crc32 this.fCrcData called.out = z.crc32 0 (o ++ called.out) := by
    rw [reading.crc, contract.crc32_append]
  have total : this.total_out + called.out.length = (o ++ called.out).length := by
    rw [reading.total_out, length_append]
  have all : (c ++ this.avail_in.take called.consumed) ++
      (this.avail_in.drop called.consumed ++ this.fIs) = text ++ trailer := by
    rw [← reading.rest, append_assoc, ← append_assoc (this.avail_in.take _), take_append_drop]
  refine ⟨_, runs, ?_⟩
  rcases inflates.outcome with ⟨ended, isText, isData⟩ | ⟨ok, progress, _⟩
  · refine .ended ⟨reading.isInitialized, reading.isOpen, ?_, reading.dry, ?_, ?_, ended, ?_⟩ isData
    · rw [isText] at all
      exact append_cancel_left all
    · rw [← isData]
      exact crc
    · rw [← isData]
      exact total
    · show (this.badbit || _) = false
      rw [reading.badbit, ended]
      decide
  · refine .reading ⟨reading.isInitialized, reading.isOpen, received ok,
      inflates.inside, all, reading.dry, crc, total, ok, ?_⟩
      inflates.right ?_ ?_
    · show (this.badbit || _) = false
      rw [reading.badbit, ok]
      decide
    · show c.length < (c ++ this.avail_in.take called.consumed).length + called.out.length
      have took := inflates.consumed_le
      rw [length_append, length_take]
      rcases progress with some' | gave
      · omega
      · have given := length_pos_iff.mpr gave
        omega
    · rw [length_append]
      omega

theorem Reading.sync (reading : Reading text trailer this.zipinit c o)
    (contract : z.Contract) (encodes : z.Encodes data text)
    (behind : trailer ≠ []) (positive : 0 < capacity) (empty : this.zipinit.getArea = []) :
    ∃ after, this.sync capacity = some (0, after) ∧ Refilled data text trailer c o after := by
  rcases reading.fillCompressed behind positive with ⟨filled, some_in⟩
  rcases filled.runInflate contract encodes some_in positive with ⟨after, runs, refilled⟩
  refine ⟨after, ?_, refilled⟩
  have goes : this.zipinit.fZipErr = Z_OK ∧ this.zipinit.getArea = [] := ⟨reading.fZipErr, empty⟩
  have open' : ¬ (after.fIsGood = false ∧ after.avail_in = [] ∧ after.fZipErr = Z_OK) := by
    rintro ⟨notGood, nothing, ok⟩
    cases refilled with
    | ended ended all =>
      rw [ended.fZipErr] at ok
      exact absurd ok (by decide)
    | reading still right progress longer =>
      have left := still.some_left behind
      rw [nothing, still.dry notGood] at left
      exact left rfl
  have fine : after.fZipErr = Z_OK ∨ after.fZipErr = Z_STREAM_END := by
    cases refilled with
    | ended ended all => exact .inr ended.fZipErr
    | reading still right progress longer => exact .inl still.fZipErr
  unfold ZipIStreamBuf.sync
  simp only [if_pos goes, runs, Option.bind_eq_bind, Option.bind_some, if_neg open', if_pos fine]

theorem Reading.answered (reading : Reading text trailer this.zipinit c o)
    (encodes : z.Encodes data text) (behind : trailer ≠ []) (positive : 0 < capacity)
    (empty : this.zipinit.getArea = []) {err : Int} {after : ZipIStreamBuf z}
    (syncs : this.sync capacity = some (err, after)) : Answered capacity this.zipinit after := by
  have left := reading.some_left behind
  have inside : c ++ (this.zipinit.avail_in ++ this.zipinit.fIs) <+: text ++ trailer := by
    rw [reading.rest]
  exact sync_answered reading.fZipErr empty reading.dry (Zlib.block_ne_nil positive left) positive
    (encodes.answer reading.received inside left positive) syncs

end

end ZipIStreamBuf

end Coast
