import Coast.Base.Decimal
import Coast.Library.Calendar
import Mathlib.Data.List.Lex
import Mathlib.Data.Int.Order.Basic

/-!
# Time stamps

A `TimeStamp` keeps the parts of a date in one `char` each.  The year is found
by a loop, and what does not fit a `char` is cut off.
-/

namespace Coast

def charOf (n : Int) : Int := (n + 128) % 256 - 128

def intOf (n : Int) : Int := (n + 2 ^ 31) % 2 ^ 32 - 2 ^ 31

/-- `TimeStamp` with the fields of its `intTimeRep`. -/
structure TimeStamp where
  eCent : Int
  eYear : Int
  eMonth : Int
  eDay : Int
  eHour : Int
  eMin : Int
  eSec : Int
  deriving DecidableEq, Repr

namespace TimeStamp

def MIN : Int := 60

def HOUR : Int := MIN * 60

def DAY : Int := 24 * HOUR

def MDAYS : List Nat := [31, 28, 31, 30, 31, 30, 31, 31, 30, 31, 30, 31]

def isLeap (year : Int) : Bool := Calendar.isLeap (intOf year)

def reset : TimeStamp := ⟨0, 0, 0, 0, 0, 0, 0⟩

def year (t : TimeStamp) : Int := t.eCent * 100 + t.eYear

/-- A day between 1970 and 2037 that its month has, and a time of day. -/
def isValid (t : TimeStamp) : Bool :=
  !(t.year < 1970 || t.year > 2037 ||
    t.eMonth < 1 || t.eMonth > 12 ||
    t.eDay < 1 || t.eDay > 31 ||
    t.eHour < 0 || t.eHour > 23 ||
    t.eMin < 0 || t.eMin > 59 ||
    t.eSec < 0 || t.eSec > 59 ||
    (t.eMonth = 2 && t.eDay > (if isLeap t.year then 29 else 28)) ||
    ((t.eMonth = 4 || t.eMonth = 6 || t.eMonth = 9 || t.eMonth = 11) && t.eDay > 30))

def days (t : TimeStamp) : Int :=
  365 * (t.year - 1970) + ((t.year - 1) / 4 - 1969 / 4) +
    ((MDAYS.take (t.eMonth - 1).toNat).sum : Nat) +
    (if t.eMonth > 2 ∧ isLeap t.year then 1 else 0) + (t.eDay - 1)

def asLong (t : TimeStamp) : Int :=
  if t.isValid then
    t.days * DAY + (t.eHour * HOUR + t.eMin * MIN + t.eSec)
  else 0

def yearDays (y : Int) : Nat := if isLeap y then 366 else 365

/-- Years are counted as long as there are days for one more. -/
def yearLoop (y : Int) (days : Nat) : Int × Nat :=
  if yearDays y ≤ days then yearLoop (y + 1) (days - yearDays y)
  else (y, days)
termination_by days
decreasing_by
  have positive : 0 < yearDays y := by
    rw [yearDays]
    split <;> decide
  omega

def leapYearFebruaryAdjust (y : Int) (index : Nat) : Nat := if index = 1 ∧ isLeap y then 1 else 0

def monthLoop (y : Int) : Nat → List Nat → Nat → Nat × Nat
  | i, [], days => (i, days)
  | i, month :: months, days =>
    let length := month + leapYearFebruaryAdjust y i
    if length ≤ days then monthLoop y (i + 1) months (days - length)
    else (i, days)

/-- Years, months and days of a time, each stored in a char. -/
def initFromTimeT (lTime : Nat) : TimeStamp :=
  let rem := lTime % 86400
  let years := yearLoop 1970 (lTime / 86400)
  let months := monthLoop years.1 0 MDAYS years.2
  { eCent := charOf (years.1 / 100)
    eYear := charOf (years.1 % 100)
    eMonth := charOf (months.1 + 1)
    eDay := charOf (months.2 + 1)
    eHour := charOf (rem / 3600 : Nat)
    eMin := charOf (rem % 3600 / 60 : Nat)
    eSec := charOf (rem % 3600 % 60 : Nat) }

def ofTimeT (utc : Int) : TimeStamp := if 0 ≤ utc then initFromTimeT utc.toNat else reset

/-- The leap years among all values of an `int`. -/
def leapsOfInt : Int := 1041529570

def daysTo (y : Int) : Int :=
  365 * (y - 1970) + (y + 2 ^ 31) / 2 ^ 32 * leapsOfInt +
    Calendar.leapsBefore (intOf y) - Calendar.leapsBefore 1970

theorem charOf_small {n : Int} (low : 0 ≤ n) (high : n < 128) : charOf n = n := by
  rw [charOf]
  omega

theorem leapsOfInt_eq :
    Calendar.leapsBefore (2 ^ 31) - Calendar.leapsBefore (-2 ^ 31) = leapsOfInt := by
  decide +kernel

theorem daysTo_succ (y : Int) : daysTo (y + 1) = daysTo y + yearDays y := by
  have leaps := Calendar.leapsBefore_succ (intOf y)
  have length : (yearDays y : Int) = 365 + if Calendar.isLeap (intOf y) then 1 else 0 := by
    rw [yearDays, isLeap]
    split <;> rfl
  rw [daysTo, daysTo, length]
  by_cases last : intOf y + 1 = 2 ^ 31
  · have wraps : intOf (y + 1) = -2 ^ 31 := by
      rw [intOf] at last ⊢
      omega
    have block : (y + 1 + 2 ^ 31) / 2 ^ 32 = (y + 2 ^ 31) / 2 ^ 32 + 1 := by
      rw [intOf] at last
      omega
    have all := leapsOfInt_eq
    rw [last] at leaps
    rw [wraps, block, Int.add_mul]
    omega
  · have next : intOf (y + 1) = intOf y + 1 := by
      rw [intOf] at last
      rw [intOf, intOf]
      omega
    have block : (y + 1 + 2 ^ 31) / 2 ^ 32 = (y + 2 ^ 31) / 2 ^ 32 := by
      rw [intOf] at last
      omega
    rw [next, block, leaps]
    omega

theorem yearLoop_spec (y : Int) (days : Nat) :
    y ≤ (yearLoop y days).1 ∧ daysTo (yearLoop y days).1 + (yearLoop y days).2 = daysTo y + days ∧
      (yearLoop y days).2 < yearDays (yearLoop y days).1 := by
  induction y, days using yearLoop.induct with
  | case1 y days enough ih =>
    rcases ih with ⟨later, parts, less⟩
    have next := daysTo_succ y
    rw [yearLoop, if_pos enough]
    refine ⟨Int.le_trans (Int.le_add_one (Int.le_refl y)) later, ?_, less⟩
    rw [parts, next, Int.ofNat_sub enough]
    omega
  | case2 y days short =>
    rw [yearLoop, if_neg short]
    exact ⟨Int.le_refl y, rfl, Nat.lt_of_not_le short⟩

theorem initFromTimeT_seconds (lTime : Nat) :
    (initFromTimeT lTime).eHour * HOUR + (initFromTimeT lTime).eMin * MIN +
      (initFromTimeT lTime).eSec = (lTime % 86400 : Nat) := by
  simp only [initFromTimeT, HOUR, MIN]
  rw [charOf_small (by omega) (by omega), charOf_small (by omega) (by omega),
    charOf_small (by omega) (by omega)]
  omega

theorem initFromTimeT_year (lTime : Nat) :
    ∃ cycles : Int, (yearLoop 1970 (lTime / 86400)).1 =
      (initFromTimeT lTime).year + 25600 * cycles := by
  have later := (yearLoop_spec 1970 (lTime / 86400)).1
  simp only [initFromTimeT, year]
  generalize (yearLoop 1970 (lTime / 86400)).1 = y at later
  rw [charOf_small (n := y % 100) (by omega) (by omega), charOf]
  exact ⟨(y / 100 + 128) / 256, by omega⟩

structure Valid (t : TimeStamp) : Prop where
  yearLow : 1970 ≤ t.year
  yearHigh : t.year ≤ 2037
  dayLow : 1 ≤ t.eDay
  dayHigh : t.eDay ≤ 31
  hourLow : 0 ≤ t.eHour
  hourHigh : t.eHour ≤ 23
  minLow : 0 ≤ t.eMin
  minHigh : t.eMin ≤ 59
  secLow : 0 ≤ t.eSec
  secHigh : t.eSec ≤ 59

theorem valid_of_isValid {t : TimeStamp} (valid : t.isValid = true) : t.Valid := by
  simp only [isValid, Bool.not_eq_true', Bool.or_eq_false_iff, decide_eq_false_iff_not] at valid
  rcases valid with ⟨⟨parts, -⟩, -⟩
  rcases parts with ⟨⟨⟨⟨⟨⟨⟨⟨⟨⟨⟨yearLow, yearHigh⟩, -⟩, -⟩, dayLow⟩, dayHigh⟩,
    hourLow⟩, hourHigh⟩, minLow⟩, minHigh⟩, secLow⟩, secHigh⟩
  constructor <;> omega

theorem mdays_take_sum (months : Nat) : (MDAYS.take months).sum ≤ 365 := by
  have parts := congrArg List.sum (List.take_append_drop months MDAYS)
  have whole : MDAYS.sum = 365 := rfl
  rw [List.sum_append, whole] at parts
  omega

theorem days_bounds {t : TimeStamp} (valid : t.Valid) :
    365 * (t.year - 1970) ≤ t.days ∧ t.days < 365 * (t.year - 1970) + 500 := by
  have sum := mdays_take_sum (t.eMonth - 1).toNat
  have yearLow := valid.yearLow
  have yearHigh := valid.yearHigh
  have dayLow := valid.dayLow
  have dayHigh := valid.dayHigh
  simp only [days]
  split <;> omega

theorem asLong_bounds {t : TimeStamp} (isValid : t.isValid = true) :
    0 ≤ t.asLong ∧ t.asLong < 2 ^ 32 := by
  have valid := valid_of_isValid isValid
  rcases days_bounds valid with ⟨lowDay, highDay⟩
  rcases valid with ⟨yearLow, yearHigh, -, -, hourLow, hourHigh, minLow, minHigh, secLow, secHigh⟩
  rw [asLong, if_pos isValid]
  simp only [DAY, HOUR, MIN]
  omega

/-- The days before a year are those of the average year but for less than a
year, as long as few blocks of years have passed. -/
theorem daysTo_bounds {y : Int} (later : 1970 ≤ y) (early : y < 2 ^ 39) :
    146097 * (y - 1970) - 160000 ≤ 400 * daysTo y ∧
      400 * daysTo y ≤ 146097 * (y - 1970) + 160000 := by
  have lower := Calendar.leapsBefore_lower (intOf y)
  have upper := Calendar.leapsBefore_upper (intOf y)
  have start : Calendar.leapsBefore 1970 = 477 := by decide
  simp only [intOf] at lower upper
  simp only [daysTo, intOf, start, leapsOfInt]
  omega

theorem daysTo_lower {y : Int} (later : 1970 ≤ y) : 365 * (y - 1970) ≤ daysTo y + 1 := by
  have lower := Calendar.leapsBefore_lower (intOf y)
  have start : Calendar.leapsBefore 1970 = 477 := by decide
  simp only [intOf] at lower
  simp only [daysTo, intOf, start, leapsOfInt]
  omega

theorem extra_days {x : Nat} (small : x < 2 ^ 15) (whole : (3 + 256 * x) % 675 = 0) :
    1000 < 2 ^ 33 * ((3 + 256 * x) / 675) % 9350208 ∧
      2 ^ 33 * ((3 + 256 * x) / 675) % 9350208 < 9349208 := by
  have all : ∀ k < 49,
      1000 < 2 ^ 33 * (33 + 256 * k) % 9350208 ∧ 2 ^ 33 * (33 + 256 * k) % 9350208 < 9349208 := by
    decide +kernel
  have multiple : (3 + 256 * x) / 675 = 33 + 256 * ((x - 87) / 675) := by
    omega
  rw [multiple]
  exact all _ (by omega)

theorem ofTimeT_extra {t : Int} {x : Nat} (small : x < 2 ^ 15) (stays : 0 ≤ t)
    (valid : (ofTimeT (t + 2 ^ 40 * (3 + 256 * x))).isValid = true) :
    (ofTimeT (t + 2 ^ 40 * (3 + 256 * x))).asLong ≠ t := by
  intro same
  obtain ⟨n, whole⟩ : ∃ n : Nat, t + 2 ^ 40 * (3 + 256 * (x : Int)) = n :=
    ⟨(t + 2 ^ 40 * (3 + 256 * (x : Int))).toNat, by omega⟩
  have stamp : ofTimeT (t + 2 ^ 40 * (3 + 256 * x)) = initFromTimeT n := by
    rw [whole, ofTimeT, if_pos (Int.natCast_nonneg n), Int.toNat_natCast]
  rw [stamp] at valid same
  have seconds := initFromTimeT_seconds n
  rw [asLong, if_pos valid, seconds] at same
  have bounds := valid_of_isValid valid
  rcases days_bounds bounds with ⟨lowDay, highDay⟩
  have low := bounds.yearLow
  have high := bounds.yearHigh
  rcases initFromTimeT_year n with ⟨cycles, years⟩
  rcases yearLoop_spec 1970 (n / 86400) with ⟨later, parts, less⟩
  generalize (yearLoop 1970 (n / 86400)).1 = y at years later parts less
  generalize (initFromTimeT n).days = shown at same lowDay highDay
  generalize (initFromTimeT n).year = year at years low high lowDay highDay
  have day : DAY = 86400 := rfl
  rw [day] at same
  -- the time of the day does not change, so the bytes above are whole days
  have whole' : (3 + 256 * x) % 675 = 0 := by omega
  have apart : (n / 86400 : Nat) = shown + (2 ^ 33 * ((3 + 256 * x) / 675) : Nat) := by
    omega
  have rest : (yearLoop 1970 (n / 86400)).2 < 366 := by
    refine Nat.lt_of_lt_of_le less ?_
    rw [yearDays]
    split <;> decide
  have start : daysTo 1970 = 0 := by decide
  have few := daysTo_lower later
  have early : y < 2 ^ 39 := by omega
  have average := daysTo_bounds later early
  have far := extra_days small whole'
  rw [apart, start] at parts
  generalize 2 ^ 33 * ((3 + 256 * x) / 675) = above at parts far
  have near : -1000 ≤ above - 9350208 * cycles ∧ above - 9350208 * cycles ≤ 1000 := by
    clear same seconds stamp whole apart whole' valid far few small
    omega
  clear average parts few same seconds stamp whole apart whole' valid
  omega

def parts (t : TimeStamp) : List Int := [t.year, t.eMonth, t.eDay, t.eHour, t.eMin, t.eSec]

def chrNumber (num : Nat) : Byte := ch '0' + BitVec.ofNat 8 num

def zfnum (num : Int) : Bytes :=
  if num ≤ 9 then [ch '0', chrNumber num.toNat]
  else [chrNumber (num / 10).toNat, chrNumber (num % 10).toNat]

def asString (t : TimeStamp) : Bytes :=
  if t.isValid then
    decimalText t.year ++ zfnum t.eMonth ++ zfnum t.eDay ++ zfnum t.eHour ++ zfnum t.eMin ++
      zfnum t.eSec
  else []

def withDigit (c : Byte) (n : Int) : Int := charOf (charOf (n * 10) + (c.toNat - 48))

def addCharacter (cData : List Int) (fStructPos : Nat) (c : Byte) : List Int :=
  cData.modify (fStructPos / 2) (withDigit c)

def initTurn (externalTimeRep : Bytes) (s : List Int × Nat × Nat) (i : Nat) :
    List Int × Nat × Nat :=
  match externalTimeRep[i]? with
  | some c =>
    if isdigit c then (addCharacter s.1 s.2.1 c, s.2.1 + 1, s.2.2 + 1) else s
  | none =>
    (addCharacter s.1 s.2.1 ((lit "19700101000000").getD s.2.1 0), s.2.1 + 1, s.2.2)

def ofString (externalTimeRep : Bytes) : TimeStamp :=
  match (List.range 14).foldl (initTurn externalTimeRep) (List.replicate 7 0, 0, 0) with
  | ([cent, year, month, day, hour, min, sec], _, lExtCount) =>
    if lExtCount < 4 then reset else ⟨cent, year, month, day, hour, min, sec⟩
  | _ => reset

def monthStart (leap : Bool) (m : Nat) : Nat :=
  (MDAYS.take m).sum + if 2 ≤ m ∧ leap then 1 else 0

def monthLength (leap : Bool) (m : Nat) : Nat := MDAYS.getD m 0 + if m = 1 ∧ leap then 1 else 0

theorem monthLength_eq : ∀ leap : Bool, ∀ m < 12, (monthLength leap m : Int) =
    if m = 1 then (if leap then 29 else 28)
    else if m = 3 ∨ m = 5 ∨ m = 8 ∨ m = 10 then 30 else 31 := by
  decide

theorem monthLength_le : ∀ leap : Bool, ∀ m < 12, monthLength leap m ≤ 31 := by
  decide

theorem monthStart_le : ∀ leap : Bool, ∀ m < 12, ∀ n < 12, m < n →
    monthStart leap m + monthLength leap m ≤ monthStart leap n := by
  decide

theorem monthEnd_le : ∀ leap : Bool, ∀ m < 12,
    monthStart leap m + monthLength leap m ≤ if leap then 366 else 365 := by
  decide

theorem monthLoop_leap {y z : Int} (same : isLeap y = isLeap z) (i : Nat) (months : List Nat)
    (days : Nat) : monthLoop y i months days = monthLoop z i months days := by
  induction months generalizing i days with
  | nil => rfl
  | cons month months ih =>
    rw [monthLoop, monthLoop, leapYearFebruaryAdjust, same, ← ih]
    rfl

theorem monthLoop_spec (y : Int) {days : Nat} (less : days < yearDays y) :
    ∃ m < 12, ∃ d < monthLength (isLeap y) m, monthLoop y 0 MDAYS days = (m, d) ∧
      monthStart (isLeap y) m + d = days := by
  have all : ∀ leap : Bool, ∀ n < if leap then 366 else 365,
      (monthLoop (if leap then 1972 else 1970) 0 MDAYS n).1 < 12 ∧
        (monthLoop (if leap then 1972 else 1970) 0 MDAYS n).2 <
          monthLength leap (monthLoop (if leap then 1972 else 1970) 0 MDAYS n).1 ∧
        monthStart leap (monthLoop (if leap then 1972 else 1970) 0 MDAYS n).1 +
          (monthLoop (if leap then 1972 else 1970) 0 MDAYS n).2 = n := by
    decide +kernel
  have same : isLeap y = isLeap (if isLeap y then 1972 else 1970) := by
    cases isLeap y <;> rfl
  rcases all (isLeap y) days less with ⟨month, day, sum⟩
  rw [← monthLoop_leap same] at month day sum
  exact ⟨_, month, _, day, rfl, sum⟩

/-- A valid date in numbers from 0 on. -/
structure Shows (t : TimeStamp) (y m d sec : Nat) : Prop where
  year : t.year = 1970 + y
  yearLt : y < 68
  month : t.eMonth = (m + 1 : Nat)
  monthLt : m < 12
  day : t.eDay = (d + 1 : Nat)
  dayLt : d < monthLength (y % 4 = 2) m
  hour : t.eHour = (sec / 3600 : Nat)
  min : t.eMin = (sec / 60 % 60 : Nat)
  secs : t.eSec = (sec % 60 : Nat)
  secLt : sec < 86400

theorem isLeap_eq : ∀ y < 69, isLeap (1970 + (y : Nat)) = decide (y % 4 = 2) := by
  decide

theorem daysTo_eq : ∀ y < 69, daysTo (1970 + (y : Nat)) = 365 * y + ((y + 1) / 4 : Nat) := by
  decide +kernel

theorem isValid_iff (t : TimeStamp) : t.isValid = true ↔ ∃ y m d sec, Shows t y m d sec := by
  simp only [isValid, Bool.not_eq_true', Bool.or_eq_false_iff, Bool.and_eq_false_iff,
    decide_eq_false_iff_not]
  constructor
  · intro valid
    obtain ⟨y, year⟩ : ∃ y : Nat, t.year = 1970 + y := ⟨(t.year - 1970).toNat, by omega⟩
    obtain ⟨m, month⟩ : ∃ m : Nat, t.eMonth = m + 1 := ⟨(t.eMonth - 1).toNat, by omega⟩
    obtain ⟨d, day⟩ : ∃ d : Nat, t.eDay = d + 1 := ⟨(t.eDay - 1).toNat, by omega⟩
    refine ⟨y, m, d, (t.eHour * 3600 + t.eMin * 60 + t.eSec).toNat, year, by omega, month,
      by omega, day, ?_, by omega, by omega, by omega, by omega⟩
    have leap := isLeap_eq y (by omega)
    have length := monthLength_eq (y % 4 = 2) m (by omega)
    rw [year, leap] at valid
    grind
  · rintro ⟨y, m, d, sec, shows⟩
    have leap := isLeap_eq y (Nat.lt_succ_of_lt shows.yearLt)
    have length := monthLength_eq (y % 4 = 2) m shows.monthLt
    rcases shows with ⟨year, yearLt, month, monthLt, day, dayLt, hour, min, secs, secLt⟩
    rw [year, leap]
    generalize decide (y % 4 = 2) = leap at length dayLt ⊢
    cases leap <;> simp at length ⊢ <;> split at length <;> (try split at length) <;> omega

def secondsOf (y m d sec : Nat) : Nat :=
  (365 * y + (y + 1) / 4 + monthStart (y % 4 = 2) m + d) * 86400 + sec

variable {t : TimeStamp} {y m d sec : Nat}

theorem Shows.asLong (shows : Shows t y m d sec) : t.asLong = secondsOf y m d sec := by
  have leap := isLeap_eq y (Nat.lt_succ_of_lt shows.yearLt)
  rw [TimeStamp.asLong, if_pos ((isValid_iff t).mpr ⟨y, m, d, sec, shows⟩), days, shows.year,
    shows.month, shows.day, shows.hour, shows.min, shows.secs, leap, secondsOf, monthStart,
    DAY, HOUR, MIN]
  have index : (((m + 1 : Nat) : Int) - 1).toNat = m := by omega
  rw [index]
  split <;> split <;> simp_all <;> omega

theorem secondsOf_lt (shows : Shows t y m d sec) : secondsOf y m d sec < 2145916800 := by
  have inside := monthEnd_le (y % 4 = 2) m shows.monthLt
  have lasts := shows.dayLt
  have early := shows.yearLt
  have late := shows.secLt
  rw [secondsOf]
  split at inside <;> simp_all <;> omega

theorem ofTimeT_shows {t : Int} (positive : 0 ≤ t) (early : t < 2145916800) :
    ∃ y m d sec, Shows (ofTimeT t) y m d sec ∧ secondsOf y m d sec = t := by
  obtain ⟨n, rfl⟩ : ∃ n : Nat, t = n := ⟨t.toNat, by omega⟩
  rw [ofTimeT, if_pos positive, Int.toNat_natCast, initFromTimeT]
  rcases yearLoop_spec 1970 (n / 86400) with ⟨later, sum, less⟩
  have lower := daysTo_lower later
  have start : daysTo 1970 = 0 := by decide
  obtain ⟨y, year⟩ : ∃ y : Nat, (yearLoop 1970 (n / 86400)).1 = 1970 + y :=
    ⟨((yearLoop 1970 (n / 86400)).1 - 1970).toNat, by omega⟩
  have few : y < 69 := by omega
  rw [year] at sum less
  rw [daysTo_eq y few, start] at sum
  have below : y < 68 := by omega
  rcases monthLoop_spec _ less with ⟨m, monthLt, d, dayLt, loop, sum'⟩
  rw [isLeap_eq y few] at dayLt sum'
  have short := monthLength_le (y % 4 = 2) m monthLt
  refine ⟨y, m, d, n % 86400, ⟨?_, below, ?_, monthLt, ?_, dayLt, ?_, ?_, ?_, by omega⟩, ?_⟩
  · dsimp only [TimeStamp.year]
    rw [year, charOf_small (by omega) (by omega), charOf_small (by omega) (by omega)]
    omega
  · rw [year, loop]
    exact charOf_small (by omega) (by omega)
  · rw [year, loop]
    exact charOf_small (by omega) (by omega)
  · exact (charOf_small (by omega) (by omega)).trans (by omega)
  · exact (charOf_small (by omega) (by omega)).trans (by omega)
  · exact (charOf_small (by omega) (by omega)).trans (by omega)
  · rw [secondsOf]
    omega

theorem asLong_lt {t other : TimeStamp} (valid : t.isValid = true) (also : other.isValid = true)
    (before : t.parts < other.parts) : t.asLong < other.asLong := by
  rcases (isValid_iff t).mp valid with ⟨y, m, d, sec, shows⟩
  rcases (isValid_iff other).mp also with ⟨y', m', d', sec', shows'⟩
  rw [shows.asLong, shows'.asLong, secondsOf, secondsOf]
  have last := monthEnd_le (y % 4 = 2) m shows.monthLt
  have next := monthStart_le (y % 4 = 2) m shows.monthLt m' shows'.monthLt
  rcases shows with ⟨year, yearLt, month, monthLt, day, dayLt, hour, min, secs, secLt⟩
  rcases shows' with ⟨year', yearLt', month', monthLt', day', dayLt', hour', min', secs', secLt'⟩
  simp only [parts, year, year', month, month', day, day', hour, hour', min, min', secs, secs',
    List.cons_lt_cons_iff, List.lt_irrefl, and_false, or_false] at before
  rcases before with less | ⟨same, before⟩
  · split at last <;> simp_all <;> omega
  · have sameYear : y = y' := by omega
    subst sameYear
    rcases before with less | ⟨same, before⟩
    · have earlier := next (by omega)
      omega
    · have sameMonth : m = m' := by omega
      subst sameMonth
      omega

def twoDigits (n : Nat) : Bytes := [chrNumber (n / 10), chrNumber (n % 10)]

theorem digits_spec : ∀ n < 100, zfnum (n : Nat) = twoDigits n ∧
    (∀ c ∈ twoDigits n, isdigit c = true) ∧
    withDigit (chrNumber (n % 10)) (withDigit (chrNumber (n / 10)) 0) = n := by
  intro n small
  have all : ∀ n < 100, zfnum (n : Nat) = twoDigits n ∧
      withDigit (chrNumber (n % 10)) (withDigit (chrNumber (n / 10)) 0) = n := by
    decide +kernel
  have digit : ∀ n < 10, isdigit (chrNumber n) = true := by decide
  refine ⟨(all n small).1, ?_, (all n small).2⟩
  simp [twoDigits, digit (n / 10) (by omega), digit (n % 10) (by omega)]

theorem ofString_digits {a b c d e f g : Nat} (small : ∀ n ∈ [a, b, c, d, e, f, g], n < 100) :
    ofString (twoDigits a ++ twoDigits b ++ twoDigits c ++ twoDigits d ++ twoDigits e ++
      twoDigits f ++ twoDigits g) = ⟨a, b, c, d, e, f, g⟩ := by
  simp only [List.forall_mem_cons] at small
  rcases small with ⟨a', b', c', d', e', f', g', _⟩
  have digits := fun n small => (digits_spec n small).2
  simp only [twoDigits, List.forall_mem_cons] at digits
  simp [ofString, List.range, List.range.loop, initTurn, twoDigits, addCharacter, *]

theorem asString_eq (shows : Shows t y m d sec) :
    t.asString = twoDigits ((1970 + y) / 100) ++ twoDigits ((1970 + y) % 100) ++
      twoDigits (m + 1) ++ twoDigits (d + 1) ++ twoDigits (sec / 3600) ++
      twoDigits (sec / 60 % 60) ++ twoDigits (sec % 60) := by
  have years : ∀ y < 68, decimalText (1970 + (y : Nat)) =
      twoDigits ((1970 + y) / 100) ++ twoDigits ((1970 + y) % 100) := by
    decide +kernel
  have short := monthLength_le (y % 4 = 2) m shows.monthLt
  have valid := (isValid_iff t).mpr ⟨y, m, d, sec, shows⟩
  rcases shows with ⟨year, yearLt, month, monthLt, day, dayLt, hour, min, secs, secLt⟩
  rw [asString, if_pos valid, year, years y yearLt, month, day, hour, min, secs,
    (digits_spec (m + 1) (by omega)).1, (digits_spec (d + 1) (by omega)).1,
    (digits_spec (sec / 3600) (by omega)).1, (digits_spec (sec / 60 % 60) (by omega)).1,
    (digits_spec (sec % 60) (by omega)).1]

theorem ofString_asString (shows : Shows t y m d sec) : (ofString t.asString).parts = t.parts := by
  have short := monthLength_le (y % 4 = 2) m shows.monthLt
  rw [asString_eq shows]
  rcases shows with ⟨year, yearLt, month, monthLt, day, dayLt, hour, min, secs, secLt⟩
  rw [ofString_digits (by simp; omega), parts, parts, year, month, day, hour, min, secs]
  congr 1
  dsimp only [TimeStamp.year]
  omega

theorem same_of_asLong {t other : TimeStamp} (valid : t.isValid = true)
    (also : other.isValid = true) (same : t.asLong = other.asLong) : t.parts = other.parts := by
  rcases lt_trichotomy t.parts other.parts with before | alike | behind
  · exact absurd (asLong_lt valid also before) (by omega)
  · exact alike
  · exact absurd (asLong_lt also valid behind) (by omega)

theorem Shows.of_parts {other : TimeStamp} (shows : Shows t y m d sec)
    (same : other.parts = t.parts) : Shows other y m d sec := by
  simp only [parts, List.cons.injEq, and_true] at same
  rcases same with ⟨year, month, day, hour, min, secs⟩
  exact ⟨year.trans shows.year, shows.yearLt, month.trans shows.month, shows.monthLt,
    day.trans shows.day, shows.dayLt, hour.trans shows.hour, min.trans shows.min,
    secs.trans shows.secs, shows.secLt⟩

theorem asLong_lt_iff {t other : TimeStamp} (valid : t.isValid = true)
    (also : other.isValid = true) : t.asLong < other.asLong ↔ t.parts < other.parts := by
  constructor
  · intro less
    by_contra behind
    rcases eq_or_lt_of_le (not_lt.mp behind) with alike | before
    · rcases (isValid_iff t).mp valid with ⟨y, m, d, sec, shows⟩
      rw [shows.asLong, (shows.of_parts alike).asLong] at less
      exact absurd less (Int.lt_irrefl _)
    · exact absurd (asLong_lt also valid before) (by omega)
  · exact asLong_lt valid also

/-- A date that is made of a time gives it back exactly up to the end of 2037:
the century of a later one is cut off.  Valid dates come back from their times
and their texts, and are in the order of their times. -/
theorem asLong_ofTimeT_iff (t : Int) (date other : TimeStamp) :
    (0 ≤ t → (ofTimeT t).isValid = true → ((ofTimeT t).asLong = t ↔ t < 2145916800)) ∧
      (date.isValid = true → (ofTimeT date.asLong).parts = date.parts ∧
        (ofString date.asString).parts = date.parts) ∧
      (date.isValid = true → other.isValid = true →
        (date.asLong < other.asLong ↔ date.parts < other.parts)) := by
  refine ⟨?_, ?_, asLong_lt_iff⟩
  · intro positive valid
    constructor
    · intro same
      rcases (isValid_iff _).mp valid with ⟨y, m, d, sec, shows⟩
      rw [← same, shows.asLong]
      exact Int.ofNat_lt.mpr (secondsOf_lt shows)
    · intro early
      rcases ofTimeT_shows positive early with ⟨y, m, d, sec, shows, same⟩
      rw [shows.asLong, same]
  · intro valid
    rcases (isValid_iff date).mp valid with ⟨y, m, d, sec, shows⟩
    refine ⟨?_, ofString_asString shows⟩
    have early := secondsOf_lt shows
    rw [shows.asLong]
    rcases ofTimeT_shows (Int.natCast_nonneg (secondsOf y m d sec)) (by omega) with
      ⟨y', m', d', sec', shows', same⟩
    refine same_of_asLong ((isValid_iff _).mpr ⟨y', m', d', sec', shows'⟩) valid ?_
    rw [shows'.asLong, shows.asLong, same]

theorem asLong_ofTimeT_iff_secondDay :
    (ofTimeT 86400).isValid = true ∧ (ofTimeT 86400).asLong = 86400 ∧
      (ofTimeT (ofTimeT 86400).asLong).parts = (ofTimeT 86400).parts ∧
      (⟨19, 70, 1, 1, 23, 59, 59⟩ : TimeStamp).asLong < (ofTimeT 86400).asLong := by
  have shown : ofTimeT 86400 = ⟨19, 70, 1, 2, 0, 0, 0⟩ := by
    rw [ofTimeT, if_pos (by decide), initFromTimeT]
    rw [show Int.toNat 86400 / 86400 = 1 from rfl, yearLoop, if_neg (by decide)]
    decide +kernel
  have valid : (ofTimeT 86400).isValid = true := by
    rw [shown]
    decide
  have holds := asLong_ofTimeT_iff 86400 ⟨19, 70, 1, 1, 23, 59, 59⟩ (ofTimeT 86400)
  have back := asLong_ofTimeT_iff 86400 (ofTimeT 86400) (ofTimeT 86400)
  refine ⟨valid, (holds.1 (by decide) valid).mpr (by decide), (back.2.1 valid).1, ?_⟩
  refine (holds.2.2 (by decide) valid).mpr ?_
  rw [shown]
  decide

theorem yearLoop_late : yearLoop 1970 9350208 = (27570, 0) := by
  rcases yearLoop_spec 1970 9350208 with ⟨later, sum, less⟩
  rw [show daysTo 1970 = 0 by decide] at sum
  have lower := daysTo_lower later
  have average := daysTo_bounds later (by omega)
  have short : yearDays (yearLoop 1970 9350208).1 ≤ 366 := by
    rw [yearDays]
    split <;> decide
  have before : daysTo 27568 = 9349477 ∧ daysTo 27569 = 9349843 ∧ daysTo 27570 = 9350208 ∧
      daysTo 27571 = 9350573 ∧ daysTo 27572 = 9350938 := by
    decide
  have days : yearDays 27568 = 366 ∧ yearDays 27569 = 365 := by decide
  generalize yearLoop 1970 9350208 = reached at *
  rcases reached with ⟨y, rest⟩
  dsimp only at *
  have cases : y = 27568 ∨ y = 27569 ∨ y = 27570 ∨ y = 27571 ∨ y = 27572 := by omega
  rcases cases with rfl | rfl | rfl | rfl | rfl
  · omega
  · omega
  · congr
    omega
  · omega
  · omega

/-- The first second of the year 27570 looks like that of 1970. -/
theorem not_asLong_ofTimeT : ¬ ∀ t, 0 ≤ t → (ofTimeT t).isValid = true →
    (ofTimeT t).asLong = t := by
  intro all
  have shown : ofTimeT 807857971200 = ⟨19, 70, 1, 1, 0, 0, 0⟩ := by
    rw [ofTimeT, if_pos (by decide), initFromTimeT]
    rw [show Int.toNat 807857971200 / 86400 = 9350208 from rfl, yearLoop_late]
    decide +kernel
  have same := all 807857971200 (by decide)
  rw [shown] at same
  exact absurd (same (by decide)) (by decide)

end TimeStamp

end Coast
