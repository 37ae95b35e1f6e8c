import Coast.Compress.GzipHdrFields

/-!
# The setters of the header

The flag of an optional field is set by every setting that is not empty, but
every empty setting turns it over.
-/

namespace Coast

open List

/-- A call of one of the setters. -/
inductive HeaderCall where
  | setHeaderCRC (bFlag : Bool)
  | setExtraField (strBuf : Bytes)
  | setFilename (strFilename : Bytes)
  | setComment (strComment : Bytes)
  | setModificationTime (aStamp : TimeStamp)
  deriving DecidableEq, Repr

namespace HeaderCall

def perform (this : HeaderState) : HeaderCall → HeaderState
  | setHeaderCRC bFlag => this.setHeaderCRC bFlag
  | setExtraField strBuf => this.setExtraField strBuf
  | setFilename strFilename => this.setFilename strFilename
  | setComment strComment => this.setComment strComment
  | setModificationTime aStamp => this.setModificationTime aStamp

/-- Texts without NUL, an extra field of at most 65535 bytes, and a time that
fits 32 bits. -/
def Allowed : HeaderCall → Prop
  | setHeaderCRC _ => True
  | setExtraField strBuf => strBuf.length ≤ 65535
  | setFilename strFilename => NulFree strFilename
  | setComment strComment => NulFree strComment
  | setModificationTime aStamp => aStamp.isValid = true

instance : (call : HeaderCall) → Decidable call.Allowed
  | setHeaderCRC _ => inferInstanceAs (Decidable True)
  | setExtraField strBuf =>
    inferInstanceAs (Decidable (strBuf.length ≤ 65535))
  | setFilename strFilename => inferInstanceAs (Decidable (NulFree strFilename))
  | setComment strComment => inferInstanceAs (Decidable (NulFree strComment))
  | setModificationTime aStamp =>
    inferInstanceAs (Decidable (aStamp.isValid = true))

def setting : HdrFlag → HeaderCall → Option Bool
  | .eFHCRC, setHeaderCRC bFlag => some bFlag
  | .eFEXTRA, setExtraField strBuf => some (strBuf ≠ [])
  | .eFNAME, setFilename strFilename => some (strFilename ≠ [])
  | .eFCOMMENT, setComment strComment => some (strComment ≠ [])
  | _, _ => none

def text : HdrFlag → HeaderCall → Option Bytes
  | .eFEXTRA, setExtraField strBuf => some strBuf
  | .eFNAME, setFilename strFilename => some strFilename
  | .eFCOMMENT, setComment strComment => some strComment
  | _, _ => none

def time : HeaderCall → Option TimeStamp
  | setModificationTime aStamp => some aStamp
  | _ => none

def settings (flag : HdrFlag) (calls : List HeaderCall) : List Bool :=
  calls.filterMap (setting flag)

def lastSetting (flag : HdrFlag) (calls : List HeaderCall) : Bool :=
  (settings flag calls).getLastD false

def lastText (flag : HdrFlag) (calls : List HeaderCall) : Bytes :=
  (calls.filterMap (text flag)).getLastD []

def lastTime (calls : List HeaderCall) : Option TimeStamp := (calls.filterMap time).getLast?

def header (calls : List HeaderCall) : GzipHdr := (calls.foldl perform .create).fHeader

def toggled (settings : List Bool) : Bool :=
  settings.foldl (fun present set => set || !present) false

def trailing (settings : List Bool) : Nat := (settings.reverse.takeWhile (! ·)).length

/-- The empty settings at the end leave the flag as the last setting says. -/
def InStep (settings : List Bool) : Prop :=
  if true ∈ settings then
    trailing settings = 0 ∨ trailing settings % 2 = 1
  else trailing settings % 2 = 0

instance (settings : List Bool) : Decidable (InStep settings) :=
  inferInstanceAs (Decidable (ite _ _ _))

section

variable (settings : List Bool)
include settings

theorem toggled_append (set : Bool) : toggled (settings ++ [set]) = (set || !toggled settings) := by
  rw [toggled, foldl_append]
  rfl

theorem trailing_append_true : trailing (settings ++ [true]) = 0 := by
  rw [trailing, reverse_append]
  rfl

theorem trailing_append_false : trailing (settings ++ [false]) = trailing settings + 1 := by
  rw [trailing, reverse_append]
  rfl

theorem toggled_iff :
    toggled settings = true ↔ if true ∈ settings then trailing settings % 2 = 0
      else trailing settings % 2 = 1 := by
  induction settings using List.reverseRecOn with
  | nil => decide
  | append_singleton settings set ih =>
    cases set with
    | true => simp [toggled_append, trailing_append_true]
    | false =>
      rw [toggled_append, trailing_append_false, Bool.false_or,
        Bool.not_eq_true', ← Bool.not_eq_true, ih]
      simp only [mem_append, mem_singleton, Bool.true_eq_false, or_false]
      split <;> omega

theorem toggled_eq_last_iff : toggled settings = settings.getLastD false ↔ InStep settings := by
  cases settings using List.reverseRecOn with
  | nil => decide
  | append_singleton settings set =>
    rw [InStep, getLastD_concat]
    cases set with
    | true => simp [toggled_append, trailing_append_true]
    | false =>
      rw [← Bool.not_eq_true, toggled_iff, trailing_append_false]
      split <;> omega

end

theorem settings_append (flag : HdrFlag) (calls : List HeaderCall) (call : HeaderCall) :
    settings flag (calls ++ [call]) = settings flag calls ++ (setting flag call).toList := by
  rw [settings, filterMap_append]
  cases set : setting flag call <;> simp [settings, set]

theorem lastText_append (flag : HdrFlag) (calls : List HeaderCall) (call : HeaderCall) :
    lastText flag (calls ++ [call]) = (text flag call).getD (lastText flag calls) := by
  rw [lastText, filterMap_append]
  cases set : text flag call <;> simp [lastText, set]

theorem lastTime_append (calls : List HeaderCall) (call : HeaderCall) :
    lastTime (calls ++ [call]) = (time call).or (lastTime calls) := by
  rw [lastTime, filterMap_append]
  cases set : time call <;> simp [lastTime, set]

end HeaderCall

/-!
## Headers that are set, written and read back

The texts are always read back.  A flag is only right when the empty settings
at its end are in step, and the modification time never comes back, because
the eight bytes that are taken for it reach into the next fields.
-/

open Option

namespace HdrFlag

def index : HdrFlag → Nat
  | eFHCRC => 1
  | eFEXTRA => 2
  | eFNAME => 3
  | eFCOMMENT => 4

theorem bit_eq (flag : HdrFlag) : flag.bit = BitVec.twoPow 8 flag.index := by
  cases flag <;> rfl

end HdrFlag

theorem GzipHdr.has_eq (this : GzipHdr) (flag : HdrFlag) :
    this.has flag = this.Flags.getLsbD flag.index := by
  rw [has, flag.bit_eq, BitVec.and_twoPow]
  cases flag <;> cases this.Flags.getLsbD _ <;> decide

theorem HeaderState.mark_has (header : GzipHdr) (flag other : HdrFlag) (present : Bool) :
    (mark header flag present).has other = if other = flag then present || !header.has flag
      else header.has other := by
  have bit := flag.bit_eq
  rw [GzipHdr.has_eq, GzipHdr.has_eq, GzipHdr.has_eq, mark]
  cases present <;> cases flag <;> cases other <;> simp [bit, HdrFlag.index]

namespace HeaderCall

/-- What the header keeps of the calls that were made. -/
structure Kept (calls : List HeaderCall) (header : GzipHdr) : Prop where
  ID1 : header.ID1 = 0x1f
  ID2 : header.ID2 = 0x8b
  ExtraFlags : header.ExtraFlags = 0
  OperatingSystem : header.OperatingSystem = 3
  present : ∀ flag, header.has flag = toggled (settings flag calls)
  ExtraField : header.ExtraField = lastText .eFEXTRA calls
  XLEN : header.XLEN = header.ExtraField.length
  small : header.ExtraField.length < 2 ^ 16
  FileName : header.FileName = lastText .eFNAME calls
  nameFree : NulFree header.FileName
  Comment : header.Comment = lastText .eFCOMMENT calls
  commentFree : NulFree header.Comment
  ModificationTime : header.ModificationTime = ZipOStreamBuf.longBytes 4
    (BitVec.ofInt 64 ((lastTime calls).elim 0 (·.asLong))).toNat

theorem kept_nil : Kept [] .create where
  ID1 := rfl
  ID2 := rfl
  ExtraFlags := rfl
  OperatingSystem := rfl
  present flag := by cases flag <;> decide
  ExtraField := rfl
  XLEN := rfl
  small := by decide
  FileName := rfl
  nameFree := by decide
  Comment := rfl
  commentFree := by decide
  ModificationTime := by decide

variable {calls : List HeaderCall}

theorem present_append {header : GzipHdr}
    (kept : Kept calls header) (call : HeaderCall) (flag : HdrFlag) :
    toggled (settings flag (calls ++ [call])) =
      ((setting flag call).elim (header.has flag) fun set => set || !header.has flag) := by
  rw [settings_append]
  cases set : setting flag call with
  | none => rw [toList_none, append_nil, kept.present, Option.elim]
  | some set =>
    rw [toList_some, toggled_append, kept.present, Option.elim]

theorem Kept.perform {this : HeaderState} (kept : Kept calls this.fHeader)
    (fresh : this.isInitialized = false) {call : HeaderCall} (allowed : call.Allowed) :
    Kept (calls ++ [call]) (call.perform this).fHeader ∧
      (call.perform this).isInitialized = false := by
  have flags := present_append kept call
  have texts := fun flag => lastText_append flag calls call
  have times := lastTime_append calls call
  obtain ⟨isInitialized, header⟩ := this
  subst fresh
  cases call with
  | setHeaderCRC bFlag =>
    refine ⟨⟨kept.ID1, kept.ID2, kept.ExtraFlags, kept.OperatingSystem, ?_,
      (texts .eFEXTRA).symm ▸ kept.ExtraField, kept.XLEN, kept.small,
      (texts .eFNAME).symm ▸ kept.FileName, kept.nameFree,
      (texts .eFCOMMENT).symm ▸ kept.Comment, kept.commentFree,
      times.symm ▸ kept.ModificationTime⟩, rfl⟩
    intro flag
    rw [flags]
    refine (HeaderState.mark_has header .eFHCRC flag bFlag).trans ?_
    cases flag <;> rfl
  | setExtraField strBuf =>
    have short : strBuf.length % 2 ^ 16 = strBuf.length :=
      Nat.mod_eq_of_lt (Nat.lt_succ_of_le allowed)
    refine ⟨⟨kept.ID1, kept.ID2, kept.ExtraFlags, kept.OperatingSystem, ?_,
      (texts .eFEXTRA).symm, short, Nat.lt_succ_of_le allowed,
      (texts .eFNAME).symm ▸ kept.FileName, kept.nameFree,
      (texts .eFCOMMENT).symm ▸ kept.Comment, kept.commentFree,
      times.symm ▸ kept.ModificationTime⟩, rfl⟩
    intro flag
    rw [flags]
    refine (HeaderState.mark_has header .eFEXTRA flag (strBuf ≠ [])).trans ?_
    cases flag <;> rfl
  | setFilename strFilename =>
    refine ⟨⟨kept.ID1, kept.ID2, kept.ExtraFlags, kept.OperatingSystem, ?_,
      (texts .eFEXTRA).symm ▸ kept.ExtraField, kept.XLEN, kept.small,
      (texts .eFNAME).symm, allowed,
      (texts .eFCOMMENT).symm ▸ kept.Comment, kept.commentFree,
      times.symm ▸ kept.ModificationTime⟩, rfl⟩
    intro flag
    rw [flags]
    refine (HeaderState.mark_has header .eFNAME flag (strFilename ≠ [])).trans ?_
    cases flag <;> rfl
  | setComment strComment =>
    refine ⟨⟨kept.ID1, kept.ID2, kept.ExtraFlags, kept.OperatingSystem, ?_,
      (texts .eFEXTRA).symm ▸ kept.ExtraField, kept.XLEN, kept.small,
      (texts .eFNAME).symm ▸ kept.FileName, kept.nameFree,
      (texts .eFCOMMENT).symm, allowed,
      times.symm ▸ kept.ModificationTime⟩, rfl⟩
    intro flag
    rw [flags]
    refine (HeaderState.mark_has header .eFCOMMENT flag (strComment ≠ [])).trans ?_
    cases flag <;> rfl
  | setModificationTime aStamp =>
    refine ⟨⟨kept.ID1, kept.ID2, kept.ExtraFlags, kept.OperatingSystem, ?_,
      (texts .eFEXTRA).symm ▸ kept.ExtraField, kept.XLEN, kept.small,
      (texts .eFNAME).symm ▸ kept.FileName, kept.nameFree,
      (texts .eFCOMMENT).symm ▸ kept.Comment, kept.commentFree,
      ?_⟩, rfl⟩
    · intro flag
      rw [flags]
      cases flag <;> rfl
    · rw [times]
      rfl

theorem kept_header (allowed : ∀ call ∈ calls, call.Allowed) : Kept calls (header calls) := by
  have all : ∀ calls : List HeaderCall, (∀ call ∈ calls, call.Allowed) →
      Kept calls (calls.foldl perform .create).fHeader ∧
        (calls.foldl perform .create).isInitialized = false := by
    intro calls allowed
    induction calls using List.reverseRecOn with
    | nil => exact ⟨kept_nil, rfl⟩
    | append_singleton calls call ih =>
      rcases ih fun call member =>
        allowed call (mem_append_left _ member) with ⟨kept, fresh⟩
      rw [foldl_append]
      exact kept.perform fresh (allowed call (mem_append_right _ mem_cons_self))
  exact (all calls allowed).1

theorem Kept.wellFormed {header : GzipHdr} (kept : Kept calls header) : header.WellFormed where
  ID1 := kept.ID1
  ID2 := kept.ID2
  timeLength := by
    rw [kept.ModificationTime, ZipIStreamBuf.longBytes_length]
  XLEN := kept.XLEN
  small := kept.small
  FileName := kept.nameFree
  Comment := kept.commentFree

/-- A header that was read shows the last call of each setter. -/
structure Shows (calls : List HeaderCall) (read : GzipHdr) : Prop where
  valid : read.isValid = true
  present : ∀ flag, read.has flag = lastSetting flag calls
  ExtraField : read.ExtraField = lastText .eFEXTRA calls
  FileName : read.FileName = lastText .eFNAME calls
  Comment : read.Comment = lastText .eFCOMMENT calls
  time : ∀ aStamp ∈ lastTime calls,
    read.getModificationTime.isValid = true ∧ read.getModificationTime.asLong = aStamp.asLong

/-- The header that is written for the calls, with any bytes behind it, is
read with what was set last, up to the first byte behind it. -/
def RoundTrips (z : Zlib) (calls : List HeaderCall) : Prop :=
  ∀ tail : Bytes, let written := ((header calls).write z).1
    let back := GzipHdr.read z (IStream.ofText (written ++ tail)) .create
    back.1 = IStream.at_ written.reverse tail ∧ Shows calls back.2

theorem toggled_of_last {settings : List Bool}
    (last : settings.getLastD false = true) : toggled settings = true := by
  cases settings using List.reverseRecOn with
  | nil => exact last
  | append_singleton settings set =>
    rw [getLastD_concat] at last
    rw [toggled_append, last, Bool.true_or]

theorem setting_text {flag : HdrFlag} (isText : flag ≠ .eFHCRC) (call : HeaderCall) :
    setting flag call = (text flag call).map fun text => decide (text ≠ []) := by
  cases flag with
  | eFHCRC => exact absurd rfl isText
  | eFEXTRA => cases call <;> rfl
  | eFNAME => cases call <;> rfl
  | eFCOMMENT => cases call <;> rfl

theorem lastSetting_text {flag : HdrFlag} (isText : flag ≠ .eFHCRC) (calls : List HeaderCall) :
    lastSetting flag calls = decide (lastText flag calls ≠ []) := by
  induction calls using List.reverseRecOn with
  | nil => rfl
  | append_singleton calls call ih =>
    rw [lastSetting, settings_append, lastText_append, setting_text isText]
    cases text flag call with
    | none =>
      rw [map_none, toList_none, append_nil]
      exact ih
    | some text =>
      rw [map_some, toList_some, getLastD_concat]
      rfl

theorem Kept.field_text {header : GzipHdr} (kept : Kept calls header) {flag : HdrFlag}
    (isText : flag ≠ .eFHCRC) (absent : header.has flag ≠ true) : lastText flag calls = [] := by
  by_contra some'
  refine absent ((kept.present flag).trans (toggled_of_last ?_))
  have last := lastSetting_text isText calls
  rw [decide_eq_true some'] at last
  exact last

end HeaderCall

namespace GzipHdr

theorem getModificationTime_eq {this : GzipHdr} {t : Int} (low : 0 ≤ t) (high : t < 2 ^ 32)
    (time : this.ModificationTime = ZipOStreamBuf.longBytes 4 (BitVec.ofInt 64 t).toNat)
    (extraFlags : this.ExtraFlags = 0) (system : this.OperatingSystem = 3) :
    this.getModificationTime = TimeStamp.ofTimeT
      (Int.bmod (t + 2 ^ 40 * (3 + 256 * (this.XLEN % 2 ^ 16 : Nat))) (2 ^ 64)) := by
  have number : (BitVec.ofInt 64 t).toNat % 256 ^ 4 = t.toNat := by
    rw [BitVec.toNat_ofInt]
    omega
  have short : (ZipOStreamBuf.longBytes 4 (BitVec.ofInt 64 t).toNat ++
      [(0 : Byte), 3]).length = 6 := by
    rw [length_append, ZipIStreamBuf.longBytes_length]
    rfl
  have between : valueOf [(0 : Byte), 3] = 768 := rfl
  rw [getModificationTime, time, extraFlags, system, valueOf_append, short,
    valueOf_append, ZipIStreamBuf.longBytes_length, valueOf_longBytes,
    valueOf_longBytes, number, between, BitVec.toInt_ofNat']
  congr 2
  omega

theorem getModificationTime_ne {this : GzipHdr} {aStamp : TimeStamp} (valid : aStamp.isValid = true)
    (time : this.ModificationTime = ZipOStreamBuf.longBytes 4 (BitVec.ofInt 64 aStamp.asLong).toNat)
    (extraFlags : this.ExtraFlags = 0) (system : this.OperatingSystem = 3)
    (shows : this.getModificationTime.isValid = true) :
    this.getModificationTime.asLong ≠ aStamp.asLong := by
  rcases TimeStamp.asLong_bounds valid with ⟨low, high⟩
  rw [getModificationTime_eq low high time extraFlags system] at shows ⊢
  have bound : this.XLEN % 2 ^ 16 < 2 ^ 16 := Nat.mod_lt _ (by decide)
  generalize this.XLEN % 2 ^ 16 = x at bound shows ⊢
  by_cases small : x < 2 ^ 15
  · have fits : Int.bmod (aStamp.asLong + 2 ^ 40 * (3 + 256 * (x : Int)))
        (2 ^ 64) = aStamp.asLong + 2 ^ 40 * (3 + 256 * (x : Int)) :=
      Int.bmod_eq_of_le (by omega) (by omega)
    rw [fits] at shows ⊢
    exact TimeStamp.ofTimeT_extra small low shows
  · have negative : ¬ 0 ≤ Int.bmod (aStamp.asLong + 2 ^ 40 * (3 + 256 * (x : Int))) (2 ^ 64) := by
      rw [Int.bmod_def]
      omega
    rw [TimeStamp.ofTimeT, if_neg negative] at shows
    exact absurd shows (by decide)

end GzipHdr

namespace HeaderCall

variable {calls : List HeaderCall}

theorem lastTime_of_none (noTime : ∀ call ∈ calls, call.time = none) : lastTime calls = none := by
  have empty : calls.filterMap time = [] := filterMap_eq_nil_iff.mpr noTime
  rw [lastTime, empty]
  rfl

theorem lastTime_isSome {call : HeaderCall} (member : call ∈ calls) (sets : call.time ≠ none) :
    ∃ aStamp, lastTime calls = some aStamp ∧ setModificationTime aStamp ∈ calls := by
  rcases ne_none_iff_exists'.mp sets with ⟨aStamp, set⟩
  have listed : aStamp ∈ calls.filterMap time := mem_filterMap.mpr ⟨call, member, set⟩
  have last := getLast?_eq_some_getLast (ne_nil_of_mem listed)
  refine ⟨_, last, ?_⟩
  rcases mem_filterMap.mp (getLast_mem (ne_nil_of_mem listed))
    with ⟨setter, inside, same⟩
  cases setter with
  | setModificationTime aStamp =>
    cases same
    exact inside
  | _ => cases same

theorem Kept.field_lastText {header : GzipHdr} (kept : Kept calls header) {flag : HdrFlag}
    (isText : flag ≠ .eFHCRC) {text : Bytes} (same : text = lastText flag calls) :
    header.field flag text = lastText flag calls := by
  by_cases present : header.has flag = true
  · rw [GzipHdr.field, if_pos present, same]
  · rw [GzipHdr.field, if_neg present, kept.field_text isText present]

/-- Without the time, the header is read back when all flags are in step. -/
theorem roundTrips_iff (z : Zlib) {calls : List HeaderCall}
    (allowed : ∀ call ∈ calls, call.Allowed) :
    RoundTrips z calls ↔
      (∀ call ∈ calls, call.time = none) ∧ ∀ flag, InStep (settings flag calls) := by
  have kept := kept_header allowed
  have whole := GzipHdr.read_write z kept.wellFormed
  have flags := GzipHdr.shown_has z (header calls)
  rcases GzipHdr.shown_eq z (header calls) with ⟨CRC16, shown⟩
  constructor
  · intro trips
    have shows := (trips []).2
    rw [whole] at shows
    constructor
    · intro call member
      by_contra sets
      rcases lastTime_isSome member sets with ⟨aStamp, last, inside⟩
      rcases shows.time aStamp last with ⟨valid, same⟩
      have extraFlags : ((header calls).shown z).ExtraFlags = 0 := by
        rw [shown]
        exact kept.ExtraFlags
      have system : ((header calls).shown z).OperatingSystem = 3 := by
        rw [shown]
        exact kept.OperatingSystem
      have time := kept.ModificationTime
      rw [last] at time
      have timeRead : ((header calls).shown z).ModificationTime =
          ZipOStreamBuf.longBytes 4 (BitVec.ofInt 64 aStamp.asLong).toNat := by
        rw [shown]
        exact time
      exact GzipHdr.getModificationTime_ne (allowed _ inside) timeRead extraFlags system valid same
    · intro flag
      rw [← toggled_eq_last_iff, ← kept.present, ← flags]
      exact shows.present flag
  · rintro ⟨noTime, inStep⟩ tail
    refine ⟨congrArg Prod.fst (whole tail), ?_⟩
    rw [whole]
    refine ⟨?_, ?_, ?_, ?_, ?_, ?_⟩
    · exact GzipHdr.shown_isValid z _ kept.wellFormed
    · intro flag
      rw [flags, kept.present]
      exact (toggled_eq_last_iff _).mpr (inStep flag)
    · rw [shown]
      exact kept.field_lastText (by decide) kept.ExtraField
    · rw [shown]
      exact kept.field_lastText (by decide) kept.FileName
    · rw [shown]
      exact kept.field_lastText (by decide) kept.Comment
    · intro aStamp last
      rw [lastTime_of_none noTime] at last
      cases last

theorem roundTrips_iff_cleared :
    RoundTrips plainZlib [.setFilename [65], .setFilename [], .setHeaderCRC true] ↔
      (∀ call ∈ [HeaderCall.setFilename [65], .setFilename [],
        .setHeaderCRC true], call.time = none) ∧
          ∀ flag, InStep (settings flag [.setFilename [65], .setFilename [], .setHeaderCRC true]) :=
  roundTrips_iff plainZlib (by decide)

/-- Turning the checksum off on a new stream turns it on. -/
theorem not_roundTrips :
    (∀ call ∈ [setHeaderCRC false], call.Allowed) ∧
      ¬ RoundTrips plainZlib [setHeaderCRC false] := by
  have allowed : ∀ call ∈ [setHeaderCRC false], call.Allowed := by
    decide
  refine ⟨allowed, fun trips => ?_⟩
  have whole := GzipHdr.read_write plainZlib (kept_header allowed).wellFormed []
  have present := (trips []).2.present .eFHCRC
  rw [whole, GzipHdr.shown_has] at present
  exact absurd present (by decide)

end HeaderCall

end Coast
