import Coast.Compress.ZipIStream

/-!
# Comparing the trailer

`getLong` puts eight bytes together.  It gives the number they were written
from exactly when that is below `2 ^ 31`.
-/

namespace Coast

namespace ZipIStreamBuf

open List Option

def assemble : Bytes → Nat → Nat → Option Nat
  | [], _, value => some value
  | byte :: bytes, n, value => do
      let more ← shifted byte n
      assemble bytes (n + 1) ((value + more) % 2 ^ 64)

theorem longBytes_length (left value : Nat) :
    (ZipOStreamBuf.longBytes left value).length = left := by
  induction left generalizing value with
  | zero => rfl
  | succ left ih =>
    rw [ZipOStreamBuf.longBytes, length_cons, ih]

theorem assemble_longBytes (left w n value : Nat) :
    assemble (ZipOStreamBuf.longBytes (left + 1) w) n value =
      (shifted (BitVec.ofNat 8 w) n).bind fun more =>
        assemble (ZipOStreamBuf.longBytes left (w / 256)) (n + 1) ((value + more) % 2 ^ 64) := rfl

theorem shifted_low {w n : Nat} (small : w % 256 * 2 ^ (8 * n) < 2 ^ 31) :
    shifted (BitVec.ofNat 8 w) n = some (w % 256 * 2 ^ (8 * n)) := by
  unfold shifted
  rw [BitVec.toNat_ofNat]
  exact if_pos small

theorem shifted_high {w n : Nat} (high : 4 ≤ n) (some' : w % 256 ≠ 0) :
    shifted (BitVec.ofNat 8 w) n = none := by
  have big : 2 ^ 32 ≤ 2 ^ (8 * n) := Nat.pow_le_pow_right (by decide) (by omega)
  have bigger : 2 ^ (8 * n) ≤ w % 256 * 2 ^ (8 * n) := Nat.le_mul_of_pos_left _ (by omega)
  have byte : (BitVec.ofNat 8 w).toNat = w % 256 := BitVec.toNat_ofNat w 8
  unfold shifted
  rw [byte, if_neg (by omega), if_neg (by omega)]

theorem assemble_zero (left n : Nat) {value : Nat} (small : value < 2 ^ 64) :
    assemble (ZipOStreamBuf.longBytes left 0) n value = some value := by
  induction left generalizing n with
  | zero => rfl
  | succ left ih =>
    have byte : shifted (BitVec.ofNat 8 0) n = some 0 := by
      rw [shifted_low] <;> simp
    rw [assemble_longBytes, byte, bind_some, Nat.add_zero value, Nat.mod_eq_of_lt small]
    exact ih (n + 1)

theorem assemble_high (left : Nat) {n w : Nat} (value : Nat) (high : 4 ≤ n)
    (some' : w ≠ 0) (small : w < 256 ^ left) :
    assemble (ZipOStreamBuf.longBytes left w) n value = none := by
  induction left generalizing n w value with
  | zero =>
    rw [Nat.pow_zero] at small
    omega
  | succ left ih =>
    rw [assemble_longBytes]
    by_cases zero : w % 256 = 0
    · have byte : shifted (BitVec.ofNat 8 w) n = some 0 := by
        rw [shifted_low] <;> simp [zero]
      rw [Nat.pow_succ] at small
      rw [byte, bind_some]
      exact ih _ (by omega) (by omega) (Nat.div_lt_of_lt_mul (by rwa [Nat.mul_comm] at small))
    · rw [shifted_high high zero]
      rfl

theorem assemble_lower (v : Nat) :
    assemble (ZipOStreamBuf.longBytes 8 v) 0 0 = assemble (ZipOStreamBuf.longBytes 4 (v / 2 ^ 32)) 4
        (if v % 2 ^ 32 < 2 ^ 31 then v % 2 ^ 32
        else v % 2 ^ 32 + (2 ^ 64 - 2 ^ 32)) := by
  have first : shifted (BitVec.ofNat 8 v) 0 = some (v % 256) := by
    rw [shifted_low (by omega), Nat.mul_zero, Nat.pow_zero, Nat.mul_one]
  have second : shifted (BitVec.ofNat 8 (v / 256)) 1 =
      some (v / 256 % 256 * 2 ^ 8) := shifted_low (by omega)
  have third : shifted (BitVec.ofNat 8 (v / 256 / 256)) 2 =
      some (v / 256 / 256 % 256 * 2 ^ 16) := shifted_low (by omega)
  have fourth : shifted (BitVec.ofNat 8 (v / 256 / 256 / 256)) 3 =
      some (if v % 2 ^ 32 < 2 ^ 31 then v / 256 / 256 / 256 % 256 * 2 ^ 24
        else v / 256 / 256 / 256 % 256 * 2 ^ 24 + (2 ^ 64 - 2 ^ 32)) := by
    unfold shifted
    rw [BitVec.toNat_ofNat]
    by_cases small : v % 2 ^ 32 < 2 ^ 31
    · rw [if_pos small, if_pos (by omega)]
    · rw [if_neg small, if_neg (by omega), if_pos (by decide)]
  have all : v / 256 / 256 / 256 / 256 = v / 2 ^ 32 := by omega
  rw [assemble_longBytes, first, bind_some, assemble_longBytes, second, bind_some,
    assemble_longBytes, third, bind_some, assemble_longBytes, fourth, bind_some, all]
  congr 1
  split
  · omega
  · omega

theorem assemble_iff {v : Nat} (small : v < 2 ^ 64) :
    assemble (ZipOStreamBuf.longBytes 8 v) 0 0 = some v ↔ v < 2 ^ 31 := by
  rw [assemble_lower]
  by_cases high : v / 2 ^ 32 = 0
  · have low : v % 2 ^ 32 = v := Nat.mod_eq_of_lt (by omega)
    rw [high, low, assemble_zero 4 4 (by split <;> omega), some_inj]
    split
    · omega
    · omega
  · rw [assemble_high 4 _ (by decide) high (by omega)]
    constructor
    · intro nothing
      cases nothing
    · omega

/-! ## Reading numbers -/

variable {z : Zlib} {capacity : Nat} {this : ZipIStreamBuf z}

theorem fill_some {byte : Byte} {rest : Bytes} (left : this.avail_in ++ this.fIs = byte :: rest)
    (dry : this.fIsGood = false → this.fIs = []) (positive : 0 < capacity) :
    ∃ filled avail_in, filled = (if this.avail_in.length < 1 then
        this.fillCompressed capacity else this) ∧
      filled.avail_in = byte :: avail_in ∧ avail_in ++ filled.fIs = rest ∧
      (filled.fIsGood = false → filled.fIs = []) ∧
      filled = { this with
        avail_in := filled.avail_in
        fIs := filled.fIs
        fIsGood := filled.fIsGood } := by
  cases area : this.avail_in with
  | cons first avail_in =>
    rw [area, cons_append] at left
    injection left with isFirst isRest
    refine ⟨this, avail_in, (if_neg ?_).symm, ?_, isRest, dry, rfl⟩
    · exact Nat.not_lt.mpr (Nat.succ_le_succ (Nat.zero_le _))
    · rw [area, isFirst]
  | nil =>
    rw [area, nil_append] at left
    have good : this.fIsGood = true := by
      cases isGood : this.fIsGood with
      | true => rfl
      | false =>
        rw [dry isGood] at left
        cases left
    obtain ⟨n, isPositive⟩ : ∃ n, capacity = n + 1 := ⟨capacity - 1, by omega⟩
    refine ⟨this.fillCompressed capacity, rest.take n, (if_pos Nat.zero_lt_one).symm, ?_⟩
    have fills : this.fillCompressed capacity = { this with
        avail_in := byte :: rest.take n
        fIs := rest.drop n
        fIsGood := capacity ≤ this.fIs.length } := by
      unfold fillCompressed
      rw [if_pos ⟨area, good⟩, left, isPositive]
      rfl
    rw [fills]
    refine ⟨rfl, take_append_drop n rest, ?_, rfl⟩
    intro notGood
    have short : ¬ capacity ≤ this.fIs.length := of_decide_eq_false notGood
    rw [left, length_cons] at short
    exact drop_eq_nil_of_le (by omega)

theorem getLongFrom_reads (bytes : Bytes) {tail : Bytes}
    (left : this.avail_in ++ this.fIs = bytes ++ tail)
    (dry : this.fIsGood = false → this.fIs = []) (positive : 0 < capacity) (n value : Nat) :
    ∃ after, getLongFrom capacity bytes.length n value this =
        (assemble bytes n value).map (fun long => (long, after)) ∧
      after.avail_in ++ after.fIs = tail ∧
      (after.fIsGood = false → after.fIs = []) ∧
      after = { this with
        avail_in := after.avail_in
        fIs := after.fIs
        fIsGood := after.fIsGood } := by
  induction bytes generalizing this n value with
  | nil => exact ⟨this, rfl, left, dry, rfl⟩
  | cons byte bytes ih =>
    rcases fill_some left dry positive with ⟨filled, avail_in, isFilled, area, isRest, still, same⟩
    have left' : ({ filled with avail_in := avail_in }).avail_in ++
        ({ filled with avail_in := avail_in }).fIs = bytes ++ tail := isRest
    have step : getLongFrom capacity (bytes.length + 1) n value this =
        (shifted byte n).bind fun more =>
          getLongFrom capacity bytes.length (n + 1)
            ((value + more) % 2 ^ 64) { filled with avail_in := avail_in } := by
      rw [getLongFrom, ← isFilled, area]
      rfl
    rw [length_cons, step]
    cases shifts : shifted byte n with
    | none =>
      rcases ih left' still (n + 1) 0 with ⟨after, reads, isTail, dry', same'⟩
      refine ⟨after, ?_, isTail, dry', ?_⟩
      · rw [assemble, shifts]
        rfl
      · rw [same', same]
    | some more =>
      rcases ih left' still (n + 1) ((value + more) % 2 ^ 64) with
          ⟨after, reads, isTail, dry', same'⟩
      refine ⟨after, ?_, isTail, dry', ?_⟩
      · rw [assemble, shifts]
        exact reads
      · rw [same', same]

theorem getLong_reads (v : Nat) {tail : Bytes}
    (left : this.avail_in ++ this.fIs = ZipOStreamBuf.longBytes 8 v ++ tail)
    (dry : this.fIsGood = false → this.fIs = []) (positive : 0 < capacity) :
    ∃ after, this.getLong capacity = (assemble (ZipOStreamBuf.longBytes 8 v) 0 0).map
          (fun long => (long, after)) ∧
      after.avail_in ++ after.fIs = tail ∧
      (after.fIsGood = false → after.fIs = []) ∧
      after = { this with
        avail_in := after.avail_in
        fIs := after.fIs
        fIsGood := after.fIsGood } := by
  have reads := getLongFrom_reads (ZipOStreamBuf.longBytes 8 v) left dry positive 0 0
  rwa [longBytes_length] at reads

theorem Ended.close_iff {data : Bytes} (contract : z.Contract) (positive : 0 < capacity)
    (ended : Ended data (ZipOStreamBuf.longBytes 8 (z.crc32 0 data) ++
      ZipOStreamBuf.longBytes 8 (data.length % 2 ^ 64)) this) :
    (∃ closed, this.close capacity = some closed ∧ closed.badbit = false) ↔
      z.crc32 0 data < 2 ^ 31 ∧ data.length % 2 ^ 64 < 2 ^ 31 := by
  rcases getLong_reads (z.crc32 0 data) ended.rest ended.dry positive with
      ⟨next, readsCrc, rest, dry, isNext⟩
  rw [← append_nil (ZipOStreamBuf.longBytes 8 _)] at rest
  rcases getLong_reads (data.length % 2 ^ 64) rest dry positive with
      ⟨after, readsLen, _, _, isAfter⟩
  have crcSmall : z.crc32 0 data < 2 ^ 64 := Nat.lt_trans (contract.crc32_lt data) (by decide)
  have lenSmall : data.length % 2 ^ 64 < 2 ^ 64 := Nat.mod_lt _ (by decide)
  have isCrc : after.fCrcData = z.crc32 0 data := by
    rw [isAfter, isNext]
    exact ended.crc
  have isLen : after.total_out % 2 ^ 64 = data.length % 2 ^ 64 := by
    rw [isAfter, isNext]
    exact congrArg (· % 2 ^ 64) ended.total_out
  have fine : after.badbit = false := by
    rw [isAfter, isNext]
    exact ended.badbit
  rw [← assemble_iff crcSmall, ← assemble_iff lenSmall]
  unfold close
  rw [ended.isOpen, readsCrc]
  cases assemble (ZipOStreamBuf.longBytes 8 (z.crc32 0 data)) 0 0 with
  | none => simp
  | some crc =>
    simp only [Bool.not_true, Bool.false_eq_true, if_false,
      map_some, bind_eq_bind, bind_some, readsLen]
    cases assemble (ZipOStreamBuf.longBytes 8 (data.length % 2 ^ 64)) 0 0
      with
    | none => simp
    | some len =>
      simp only [map_some, bind_some, isCrc, isLen, some_inj]
      constructor
      · rintro ⟨closed, isClosed, good⟩
        by_cases differ : crc ≠ z.crc32 0 data ∨ data.length % 2 ^ 64 ≠ len
        · rw [if_pos differ] at isClosed
          cases isClosed
          cases good
        · exact ⟨not_not.mp fun differs => differ (.inl differs),
            not_not.mp fun differs => differ (.inr fun same =>
              differs same.symm)⟩
      · rintro ⟨sameCrc, sameLen⟩
        have agree : ¬ (crc ≠ z.crc32 0 data ∨ data.length % 2 ^ 64 ≠ len) := by
          rintro (differs | differs)
          · exact differs sameCrc
          · exact differs sameLen.symm
        rw [if_neg agree]
        exact ⟨_, rfl, fine⟩

end ZipIStreamBuf

/-!
## The trailer of the gzip format

Behind the compressed text the format asks for the checksum and the length of
the data in four bytes each.  `close` writes an `unsigned long` for each.
-/

open List Option

namespace ZipOStreamBuf

variable {z : Zlib} {capacity : Nat}

/-- The checksum and the length modulo `2 ^ 32`, the lowest byte first. -/
def gzipTrailer (crc length : Nat) : Bytes :=
  longBytes 4 (crc % 2 ^ 32) ++ longBytes 4 (length % 2 ^ 32)

/-- What `close` does before it writes the trailer. -/
def finish (capacity : Nat) (this : ZipOStreamBuf z) : Option (ZipOStreamBuf z) := do
  let (_, this) ← this.sync capacity
  let this := this.flushCompressedIfNecessary capacity
  finishLoop capacity (this.calls []) this

/-- `close` appends the trailer of the format to the compressed text. -/
def AppendsTrailer (capacity : Nat) (this : ZipOStreamBuf z) : Prop :=
  ∃ finished after, this.finish capacity = some finished ∧ this.close capacity = some after ∧
    after.fOs = finished.fOs ++ gzipTrailer finished.fCrcData finished.total_in

theorem close_eq {this : ZipOStreamBuf z} (isOpen : this.isOpen = true) :
    this.close capacity = (this.finish capacity).map fun finished =>
      { finished with
        fOs := finished.fOs ++ (longBytes 8 (finished.fCrcData % 2 ^ 64) ++
          longBytes 8 (finished.total_in % 2 ^ 64))
        isOpen := false } := by
  rw [close, isOpen, finish]
  cases this.sync capacity with
  | none => rfl
  | some synced =>
    simp only [Bool.not_true, Bool.false_eq_true, if_false, bind_eq_bind, bind_some]
    cases finishLoop capacity _ _ with
    | none => rfl
    | some finished =>
      simp only [bind_some, map_some, putLong, append_assoc]

theorem not_appendsTrailer {this : ZipOStreamBuf z}
    (isOpen : this.isOpen = true) : ¬ this.AppendsTrailer capacity := by
  rintro ⟨finished, after, finishes, closes, trailer⟩
  rw [close_eq isOpen, finishes] at closes
  cases closes
  have lengths := congrArg List.length trailer
  simp only [gzipTrailer, length_append, ZipIStreamBuf.longBytes_length] at lengths
  omega

end ZipOStreamBuf

namespace ZipIStreamBuf

variable {z : Zlib} {capacity : Nat}

/-- `getLong` gives the number that `putLong` has written. -/
def GetsLong (z : Zlib) (capacity value : Nat) : Prop :=
  ∀ (os : ZipOStreamBuf z) (this : ZipIStreamBuf z) (tail : Bytes),
    os.fOs ++ (this.avail_in ++ this.fIs) = (os.putLong value).fOs ++ tail →
    (this.fIsGood = false → this.fIs = []) →
    ∃ after, this.getLong capacity = some (value, after) ∧ after.avail_in ++ after.fIs = tail

theorem getsLong_iff (positive : 0 < capacity) {value : Nat} (small : value < 2 ^ 32) :
    GetsLong z capacity value ↔ value < 2 ^ 31 := by
  have fits : value < 2 ^ 64 := Nat.lt_trans small (by decide)
  rw [← assemble_iff fits]
  constructor
  · intro gets
    let os : ZipOStreamBuf z := .create
    let this : ZipIStreamBuf z := create (ZipOStreamBuf.longBytes 8 value)
    have left : this.avail_in ++ this.fIs =
        ZipOStreamBuf.longBytes 8 value ++ [] := (append_nil _).symm
    have written : os.fOs ++ (this.avail_in ++ this.fIs) = (os.putLong value).fOs ++ [] := by
      rw [left, ZipOStreamBuf.putLong, Nat.mod_eq_of_lt fits]
      rfl
    rcases gets os this [] written nofun with ⟨after, reads, -⟩
    rcases getLong_reads value left nofun positive with ⟨next, same, -⟩
    rw [same] at reads
    rcases map_eq_some_iff.mp reads with ⟨long, whole, pair⟩
    cases pair
    exact whole
  · intro whole os this tail written dry
    rw [ZipOStreamBuf.putLong, Nat.mod_eq_of_lt fits, append_assoc] at written
    have left := append_cancel_left written
    rcases getLong_reads value left dry positive with ⟨after, reads, rest, -⟩
    rw [whole] at reads
    exact ⟨after, reads, rest⟩

/-- `close` never writes the trailer of the format, and `getLong` reads back
what is below `2 ^ 31`. -/
theorem trailer_iff (positive : 0 < capacity) :
    (∀ this : ZipOStreamBuf z, this.isOpen = true → ¬ this.AppendsTrailer capacity) ∧
    ∀ value < 2 ^ 32, (GetsLong z capacity value ↔ value < 2 ^ 31) :=
  ⟨fun _ => ZipOStreamBuf.not_appendsTrailer, fun _ => getsLong_iff positive⟩

theorem trailer_iff_plainZlib :
    ¬ (ZipOStreamBuf.create : ZipOStreamBuf plainZlib).AppendsTrailer 16384 ∧
      GetsLong plainZlib 16384 0x7fffffff ∧
      ¬ GetsLong plainZlib 16384 0xe8b7be43 := by
  have both := @trailer_iff plainZlib 16384 (by decide)
  exact ⟨both.1 _ rfl, (both.2 _ (by decide)).mpr (by decide),
    fun gets => absurd ((both.2 _ (by decide)).mp gets) (by decide)⟩

/-- A fresh stream is closed, but the trailer is too long, and the sign of the
fourth byte reaches the upper half of what `getLong` returns. -/
theorem not_trailer :
    ((ZipOStreamBuf.create : ZipOStreamBuf plainZlib).finish 16384).isSome ∧
      ¬ ((∀ this : ZipOStreamBuf plainZlib, this.isOpen = true → this.AppendsTrailer 16384) ∧
        ∀ value < 2 ^ 32, GetsLong plainZlib 16384 value) ∧
      ¬ GetsLong plainZlib 16384 0xe8b7be43 := by
  refine ⟨by decide +kernel, ?_, fun gets => ?_⟩
  · rintro ⟨appends, -⟩
    exact ZipOStreamBuf.not_appendsTrailer rfl (appends .create rfl)
  · have small := (getsLong_iff (by decide) (by decide)).mp gets
    exact absurd small (by decide)

end ZipIStreamBuf

end Coast
