import Coast.Compress.Zlib
import Coast.Library.Runs

/-!
# Compressed output streams

`ZipOStreamBuf` in gzip mode collects what is written in its put area, hands it
to zlib and writes a header in front of the compressed text and the checksum
and the length behind it.
-/

namespace Coast

def gzipHdr : Bytes := [0x1f, 0x8b, 8, 0, 0, 0, 0, 0, 0, 3]

/-- A compressing stream; `fOs` is what the stream below has got. -/
structure ZipOStreamBuf (z : Zlib) where
  fOs : Bytes
  isInitialized : Bool
  fCrcData : Nat
  fZip : z.Deflate
  total_in : Nat
  putArea : Bytes
  /-- The bytes in the buffer for compressed text. -/
  fCompressed : Bytes
  isOpen : Bool

namespace ZipOStreamBuf

variable {z : Zlib} (capacity : Nat)

def create : ZipOStreamBuf z where
  fOs := []
  isInitialized := false
  fCrcData := 0
  fZip := z.deflateInit
  total_in := 0
  putArea := []
  fCompressed := []
  isOpen := true

/-- The header goes out before the first byte. -/
def zipinit (this : ZipOStreamBuf z) : ZipOStreamBuf z :=
  if this.isInitialized then this
  else
    { this with
      isInitialized := true
      fOs := this.fOs ++ gzipHdr
      fZip := z.deflateInit
      total_in := 0
      fCompressed := []
      fCrcData := z.crc32 0 [] }

def flushCompressed (this : ZipOStreamBuf z) : ZipOStreamBuf z :=
  { this with fOs := this.fOs ++ this.fCompressed, fCompressed := [] }

def flushCompressedIfNecessary (this : ZipOStreamBuf z) : ZipOStreamBuf z :=
  if this.fCompressed.length = capacity then this.flushCompressed else this

def deflate (this : ZipOStreamBuf z) (flush : Flush) (next_in : Bytes) :
    Called z.Deflate × ZipOStreamBuf z :=
  let called := z.deflate this.fZip flush next_in (capacity - this.fCompressed.length)
  (called, { this with
    fZip := called.state
    total_in := this.total_in + called.consumed
    fCompressed := this.fCompressed ++ called.out })

/-- The loop of `sync` over what is left of the put area. -/
def syncLoop : Nat → ZipOStreamBuf z → Bytes → Int → Option (Int × ZipOStreamBuf z)
  | 0, _, _, _ => none
  | fuel + 1, this, next_in, err =>
    if next_in ≠ [] ∧ err = Z_OK then
      let (called, this) :=
        (this.flushCompressedIfNecessary capacity).deflate capacity .noFlush next_in
      syncLoop fuel this (next_in.drop called.consumed) called.err
    else some (err, this)

def calls (this : ZipOStreamBuf z) (next_in : Bytes) : Nat :=
  next_in.length + z.deflateBound (this.total_in + next_in.length) + 1

def sync (this : ZipOStreamBuf z) : Option (Int × ZipOStreamBuf z) := do
  let this := this.zipinit
  let next_in := this.putArea
  let this := { this with fCrcData := z.crc32 this.fCrcData next_in }
  let (err, this) ← syncLoop capacity (this.calls next_in) this next_in Z_OK
  some (if err = Z_OK then 0 else -1, { this with putArea := [] })

def overflow (this : ZipOStreamBuf z) (c : Byte) : Option (ZipOStreamBuf z) := do
  let (_, this) ← this.sync capacity
  some (if this.putArea.length < capacity then
    { this with putArea := this.putArea ++ [c] }
  else this)

def sputc (this : ZipOStreamBuf z) (c : Byte) : Option (ZipOStreamBuf z) :=
  if this.putArea.length < capacity then
    some { this with putArea := this.putArea ++ [c] }
  else this.overflow capacity c

def sputn : ZipOStreamBuf z → Bytes → Option (ZipOStreamBuf z)
  | this, [] => some this
  | this, c :: s => do
      let this ← this.sputc capacity c
      sputn this s

def finishLoop : Nat → ZipOStreamBuf z → Option (ZipOStreamBuf z)
  | 0, _ => none
  | fuel + 1, this =>
    let (called, this) := this.deflate capacity .finish []
    if called.err = Z_OK then finishLoop fuel this.flushCompressed
    else if called.err = Z_STREAM_END then some this.flushCompressed
    else some this

def longBytes : Nat → Nat → Bytes
  | 0, _ => []
  | n + 1, value => BitVec.ofNat 8 value :: longBytes n (value / 256)

def putLong (this : ZipOStreamBuf z) (value : Nat) : ZipOStreamBuf z :=
  { this with fOs := this.fOs ++ longBytes 8 (value % 2 ^ 64) }

/-- What is left is compressed, and the trailer is put behind it. -/
def close (this : ZipOStreamBuf z) : Option (ZipOStreamBuf z) :=
  if !this.isOpen then some this
  else do
    let (_, this) ← this.sync capacity
    let this := this.flushCompressedIfNecessary capacity
    let this ← finishLoop capacity (this.calls []) this
    let this := this.putLong this.fCrcData
    let this := this.putLong this.total_in
    some { this with isOpen := false }

end ZipOStreamBuf

/-- A call of somebody who writes. -/
inductive ZipCall where
  | put (c : Byte)
  | write (s : Bytes)
  | flush
  deriving DecidableEq, Repr

def ZipCall.data : ZipCall → Bytes
  | .put c => [c]
  | .write s => s
  | .flush => []

namespace ZipOStreamBuf

variable {z : Zlib} (capacity : Nat)

def step (this : ZipOStreamBuf z) : ZipCall → Option (ZipOStreamBuf z)
  | .put c => this.sputc capacity c
  | .write s => this.sputn capacity s
  | .flush => (this.sync capacity).map Prod.snd

end ZipOStreamBuf

/-!
## What a closed output stream has written

However the data was written and flushed, a header, a text that is inflated to
the data, its checksum and its length are in the stream.
-/

namespace ZipOStreamBuf

open List Option

variable {z : Zlib} {capacity : Nat}

/-- Zlib took `i` of the data and gave `o`. -/
structure Sending (capacity : Nat) (this : ZipOStreamBuf z) (i o : Bytes) : Prop where
  isInitialized : this.isInitialized = true
  isOpen : this.isOpen = true
  sent : z.Sent this.fZip i o
  written : this.fOs ++ this.fCompressed = gzipHdr ++ o
  total_in : this.total_in = i.length
  room : this.fCompressed.length ≤ capacity

/-- The stream has taken `data`: compressed, or still in the put area. -/
inductive Holds (capacity : Nat) : ZipOStreamBuf z → Bytes → Prop
  | fresh {data : Bytes} : Holds capacity { create with putArea := data } data
  | sending {this : ZipOStreamBuf z} {i o : Bytes}
      (sending : Sending capacity this i o) (crc : this.fCrcData = z.crc32 0 i) :
      Holds capacity this (i ++ this.putArea)

section

variable {this : ZipOStreamBuf z} {i o : Bytes}

theorem Sending.flushIfNecessary (sending : Sending capacity this i o) (positive : 0 < capacity) :
    Sending capacity (this.flushCompressedIfNecessary capacity) i o ∧
      (this.flushCompressedIfNecessary capacity).fCompressed.length < capacity ∧
      (this.flushCompressedIfNecessary capacity).putArea = this.putArea ∧
      (this.flushCompressedIfNecessary capacity).fCrcData = this.fCrcData := by
  have room := sending.room
  unfold flushCompressedIfNecessary
  split
  · refine ⟨⟨sending.isInitialized, sending.isOpen, sending.sent, ?_,
      sending.total_in, Nat.zero_le _⟩, positive, rfl, rfl⟩
    rw [← sending.written]
    exact append_nil _
  · exact ⟨sending, by omega, rfl, rfl⟩

/-- The loop sends all of the put area. -/
theorem syncLoop_sends (contract : z.Contract) (positive : 0 < capacity)
    {fuel : Nat} {next_in : Bytes} (sending : Sending capacity this i o)
    (enough : next_in.length + z.deflateBound (i.length + next_in.length) < fuel + o.length) :
    ∃ after o', syncLoop capacity fuel this next_in Z_OK = some (Z_OK, after) ∧
      Sending capacity after (i ++ next_in) o' ∧
      after.fCrcData = this.fCrcData := by
  induction fuel generalizing this i o next_in with
  | zero =>
    have bound := contract.deflate_bound this.fZip i o
      (.start sending.sent) (i.length + next_in.length) (by omega)
    omega
  | succ fuel ih =>
    by_cases empty : next_in = []
    · refine ⟨this, o, ?_, ?_, rfl⟩
      · unfold syncLoop
        rw [if_neg fun both => both.1 empty]
      · rw [empty, append_nil]
        exact sending
    · rcases sending.flushIfNecessary positive with ⟨flushed, room, _, crc⟩
      obtain ⟨now, isNow⟩ : ∃ now, now = this.flushCompressedIfNecessary capacity := ⟨_, rfl⟩
      rw [← isNow] at flushed room crc
      obtain ⟨called, isCalled⟩ : ∃ called, called = z.deflate now.fZip
          .noFlush next_in (capacity - now.fCompressed.length) := ⟨_, rfl⟩
      have free : 0 < capacity - now.fCompressed.length := by omega
      have outcome := contract.deflate_noFlush now.fZip i o flushed.sent next_in _ empty free
      have limits := contract.deflate_le now.fZip .noFlush next_in
        (capacity - now.fCompressed.length)
      have sent := Zlib.Sent.call flushed.sent next_in (capacity - now.fCompressed.length)
      rw [← isCalled] at outcome limits sent
      have next : Sending capacity { now with
          fZip := called.state
          total_in := now.total_in + called.consumed
          fCompressed := now.fCompressed ++ called.out }
          (i ++ next_in.take called.consumed) (o ++ called.out) := by
        refine ⟨flushed.isInitialized, flushed.isOpen, sent, ?_, ?_, ?_⟩
        · rw [← append_assoc, flushed.written, append_assoc]
        · show now.total_in + called.consumed = _
          rw [length_append, length_take, flushed.total_in]
          omega
        · show (now.fCompressed ++ called.out).length ≤ _
          rw [length_append]
          omega
      have progress : 0 < called.consumed + called.out.length := by
        rcases outcome.2 with took | gave
        · omega
        · have long := length_pos_iff.mpr gave
          omega
      have total : (i ++ next_in.take called.consumed).length +
          (next_in.drop called.consumed).length = i.length + next_in.length := by
        rw [length_append, length_take, length_drop]
        omega
      have less : (next_in.drop called.consumed).length +
          z.deflateBound ((i ++ next_in.take called.consumed).length +
            (next_in.drop called.consumed).length) <
            fuel + (o ++ called.out).length := by
        rw [total, length_append, length_drop]
        omega
      rcases ih next less with ⟨after, o', loops, sends, sameCrc⟩
      refine ⟨after, o', ?_, ?_, sameCrc.trans crc⟩
      · unfold syncLoop
        rw [if_pos ⟨empty, rfl⟩, ← isNow]
        unfold deflate
        dsimp only
        rw [← isCalled, outcome.1]
        exact loops
      · rwa [append_assoc, take_append_drop] at sends

end

variable {this : ZipOStreamBuf z} {data : Bytes}

theorem zipinit_sending (holds : Holds capacity this data) :
    ∃ i o, Sending capacity this.zipinit i o ∧ this.zipinit.fCrcData = z.crc32 0 i ∧
      i ++ this.zipinit.putArea = data := by
  cases holds with
  | fresh =>
    refine ⟨[], [], ⟨rfl, rfl, .init, ?_, rfl, Nat.zero_le _⟩, rfl, rfl⟩
    rfl
  | sending sending crc =>
    rename_i i o
    have same : this.zipinit = this := if_pos sending.isInitialized
    rw [same]
    exact ⟨i, o, sending, crc, rfl⟩

theorem sync_holds
    (contract : z.Contract) (positive : 0 < capacity) (holds : Holds capacity this data) :
    ∃ after o, this.sync capacity = some (0, after) ∧
      Sending capacity after data o ∧ after.fCrcData = z.crc32 0 data ∧
      after.putArea = [] := by
  rcases zipinit_sending holds with ⟨i, o, sending, crc, isData⟩
  obtain ⟨now, isNow⟩ : ∃ now, now = this.zipinit := ⟨_, rfl⟩
  rw [← isNow] at sending crc isData
  have start : Sending capacity
      { now with fCrcData := z.crc32 now.fCrcData now.putArea } i o :=
    ⟨sending.isInitialized, sending.isOpen, sending.sent, sending.written,
      sending.total_in, sending.room⟩
  have enough : now.putArea.length + z.deflateBound (i.length + now.putArea.length) <
        calls { now with fCrcData := z.crc32 now.fCrcData now.putArea } now.putArea + o.length := by
    unfold calls
    dsimp only
    rw [sending.total_in]
    omega
  rcases syncLoop_sends contract positive start enough with ⟨after, o', loops, sends, sameCrc⟩
  rw [isData] at sends
  refine ⟨{ after with putArea := [] }, o', ?_,
    ⟨sends.isInitialized, sends.isOpen, sends.sent, sends.written,
      sends.total_in, sends.room⟩, ?_, rfl⟩
  · unfold sync
    dsimp only
    rw [← isNow, loops]
    rfl
  · show after.fCrcData = _
    rw [sameCrc]
    show z.crc32 now.fCrcData now.putArea = _
    rw [crc, contract.crc32_append, isData]

theorem sputc_holds (c : Byte)
    (contract : z.Contract) (positive : 0 < capacity) (holds : Holds capacity this data) :
    ∃ after, this.sputc capacity c = some after ∧ Holds capacity after (data ++ [c]) := by
  unfold sputc
  split
  · refine ⟨_, rfl, ?_⟩
    cases holds with
    | fresh => exact .fresh
    | sending sending crc =>
      rename_i i o
      rw [append_assoc]
      exact .sending ⟨sending.isInitialized, sending.isOpen, sending.sent,
        sending.written, sending.total_in, sending.room⟩ crc
  · rcases sync_holds contract positive holds with ⟨after, o, syncs, sends, crc, empty⟩
    have room : after.putArea.length < capacity := by
      rw [empty]
      exact positive
    refine ⟨{ after with putArea := after.putArea ++ [c] }, ?_, ?_⟩
    · unfold overflow
      rw [syncs]
      exact congrArg some (if_pos room)
    · have full : Sending capacity { after with putArea := [c] } data o :=
        ⟨sends.isInitialized, sends.isOpen, sends.sent, sends.written, sends.total_in, sends.room⟩
      rw [empty]
      exact .sending full crc

theorem sputn_holds (s : Bytes)
    (contract : z.Contract) (positive : 0 < capacity) (holds : Holds capacity this data) :
    ∃ after, this.sputn capacity s = some after ∧ Holds capacity after (data ++ s) := by
  induction s generalizing this data with
  | nil => exact ⟨this, rfl, by rwa [append_nil]⟩
  | cons c s ih =>
    rcases sputc_holds c contract positive holds with ⟨next, puts, holds'⟩
    rcases ih holds' with ⟨after, rest, holdsAll⟩
    rw [append_assoc] at holdsAll
    refine ⟨after, ?_, holdsAll⟩
    unfold sputn
    rw [puts]
    exact rest

theorem step_holds (call : ZipCall)
    (contract : z.Contract) (positive : 0 < capacity) (holds : Holds capacity this data) :
    ∃ after, step capacity this call = some after ∧ Holds capacity after (data ++ call.data) := by
  cases call with
  | put c => exact sputc_holds c contract positive holds
  | write s => exact sputn_holds s contract positive holds
  | flush =>
    rcases sync_holds contract positive holds with ⟨after, o, syncs, sends, crc, empty⟩
    refine ⟨after, ?_, ?_⟩
    · unfold step
      rw [syncs]
      rfl
    · have still := Holds.sending sends crc
      rwa [empty] at still

theorem run_holds (calls : List ZipCall) (contract : z.Contract) (positive : 0 < capacity)
    (holds : Holds capacity this data) :
    ∃ last, Runs.run (step capacity) this calls = some last ∧
      Holds capacity last (data ++ calls.flatMap ZipCall.data) := by
  induction calls generalizing this data with
  | nil => exact ⟨this, rfl, by rwa [flatMap_nil, append_nil]⟩
  | cons call calls ih =>
    rcases step_holds call contract positive holds with ⟨next, steps, holds'⟩
    rcases ih holds' with ⟨last, runs, holdsAll⟩
    rw [append_assoc] at holdsAll
    refine ⟨last, ?_, holdsAll⟩
    simp only [Runs.run, steps, bind_eq_bind, bind_some, runs]

theorem finishLoop_ends (contract : z.Contract) (positive : 0 < capacity) {fuel : Nat} {i o : Bytes}
    (finishing : z.Finishing this.fZip i o) (written : this.fOs ++ this.fCompressed = gzipHdr ++ o)
    (room : this.fCompressed.length < capacity)
    (enough : z.deflateBound i.length < fuel + o.length) :
    ∃ after text, finishLoop capacity fuel this = some after ∧
      z.Encodes i text ∧ after.fOs = gzipHdr ++ text ∧
      after.fCrcData = this.fCrcData ∧ after.total_in = this.total_in := by
  induction fuel generalizing this o with
  | zero =>
    have bound := contract.deflate_bound this.fZip i o finishing i.length (Nat.le_refl _)
    omega
  | succ fuel ih =>
    obtain ⟨called, isCalled⟩ : ∃ called, called = z.deflate this.fZip
        .finish [] (capacity - this.fCompressed.length) := ⟨_, rfl⟩
    have free : 0 < capacity - this.fCompressed.length := by omega
    have outcome := contract.deflate_finish this.fZip i o finishing _ free
    have limits := contract.deflate_le this.fZip .finish [] (capacity - this.fCompressed.length)
    have ends := contract.inflate_deflate this.fZip i o finishing _ free
    have goesOn := Zlib.Finishing.call finishing (capacity - this.fCompressed.length)
    rw [← isCalled] at outcome limits ends goesOn
    have noInput : called.consumed = 0 := Nat.le_zero.mp limits.1
    have both : this.fOs ++ (this.fCompressed ++ called.out) = gzipHdr ++ (o ++ called.out) := by
      rw [← append_assoc, written, append_assoc]
    unfold finishLoop deflate
    dsimp only
    rw [← isCalled, noInput]
    rcases outcome with ended | ⟨ok, gave⟩
    · have notOk : ¬ called.err = Z_OK := by
        rw [ended]
        decide
      rw [if_neg notOk, if_pos ended]
      exact ⟨_, _, rfl, ends ended, both, rfl, rfl⟩
    · rw [if_pos ok]
      have long := length_pos_iff.mpr gave
      have next : (flushCompressed { this with
          fZip := called.state
          total_in := this.total_in + 0
          fCompressed := this.fCompressed ++ called.out }).fOs ++ [] =
            gzipHdr ++ (o ++ called.out) := by
        rw [append_nil]
        exact both
      have less : z.deflateBound i.length < fuel + (o ++ called.out).length := by
        rw [length_append]
        omega
      exact ih (goesOn ok) next positive less

theorem close_written
    (contract : z.Contract) (positive : 0 < capacity) (holds : Holds capacity this data) :
    ∃ after text, this.close capacity = some after ∧ z.Encodes data text ∧
      after.fOs = gzipHdr ++ text ++ longBytes 8 (z.crc32 0 data) ++
        longBytes 8 (data.length % 2 ^ 64) := by
  have isOpen : this.isOpen = true := by
    cases holds with
    | fresh => rfl
    | sending sending => exact sending.isOpen
  rcases sync_holds contract positive holds with ⟨synced, o, syncs, sends, crc, _⟩
  rcases sends.flushIfNecessary positive with ⟨flushed, room, _, sameCrc⟩
  obtain ⟨now, isNow⟩ : ∃ now, now = synced.flushCompressedIfNecessary capacity := ⟨_, rfl⟩
  rw [← isNow] at flushed room sameCrc
  have enough : z.deflateBound data.length < now.calls [] + o.length := by
    unfold calls
    simp only [flushed.total_in, length_nil, Nat.add_zero]
    omega
  rcases finishLoop_ends contract positive (.start flushed.sent)
    flushed.written room enough with ⟨after, text, loops, encodes, fOs, crcAfter, total⟩
  have crcIs : after.fCrcData % 2 ^ 64 = z.crc32 0 data := by
    rw [crcAfter, sameCrc, crc]
    have small := contract.crc32_lt data
    exact Nat.mod_eq_of_lt (by omega)
  have totalIs : after.total_in = data.length := by
    rw [total, flushed.total_in]
  refine ⟨{ (after.putLong after.fCrcData).putLong after.total_in with
    isOpen := false }, text, ?_, encodes, ?_⟩
  · unfold close
    rw [isOpen]
    simp only [Bool.not_true, Bool.false_eq_true, if_false, syncs,
      bind_eq_bind, bind_some, ← isNow, loops]
    rfl
  · show after.fOs ++ longBytes 8 (after.fCrcData % 2 ^ 64) ++
      longBytes 8 (after.total_in % 2 ^ 64) = _
    rw [crcIs, totalIs, fOs]

def produced (z : Zlib) (capacity : Nat) (calls : List ZipCall) : Option Bytes := do
  let last ← Runs.run (step capacity) (create : ZipOStreamBuf z) calls
  let closed ← last.close capacity
  some closed.fOs

/-- A file is the header, a text that encodes the data, and the trailer. -/
theorem produced_eq (contract : z.Contract) (positive : 0 < capacity) (calls : List ZipCall) :
    ∃ text, z.Encodes (calls.flatMap ZipCall.data) text ∧
      produced z capacity calls = some (gzipHdr ++ text ++
        longBytes 8 (z.crc32 0 (calls.flatMap ZipCall.data)) ++
        longBytes 8 ((calls.flatMap ZipCall.data).length % 2 ^ 64)) := by
  rcases run_holds calls contract positive .fresh with ⟨last, runs, holds⟩
  rcases close_written contract positive holds with ⟨after, text, closes, encodes, fOs⟩
  rw [nil_append] at encodes fOs
  refine ⟨text, encodes, ?_⟩
  have begins : Runs.run (step capacity) (create : ZipOStreamBuf z) calls = some last := runs
  unfold produced
  simp only [begins, closes, bind_eq_bind, bind_some, fOs]

end ZipOStreamBuf

end Coast
